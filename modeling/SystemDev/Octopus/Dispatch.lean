import Mathlib.Algebra.Order.BigOperators.Group.Finset
import SystemDev.Library.Count
import SystemDev.Octopus.CommandPool

/-!
# A dispatched request and its command

The pool has as many commands as the dispatch queue has tags. A command outlives its
request in two places: a refused `ib_post_send` never gives its command back, and the
completion handler ends a request before it frees its command. The count of users of the
commands (`OwnedBy`) is compared here with the count of started requests (`Counted`).

A free command at the entry is not enough for a scan to get one, since the submitters that
entered earlier look for one too and may take it. From each index on there have to be as many
free commands as submitters still to come there (`Covered`); then every scan ends in its first
pass, and no command has to be freed for it.

## Main results

* `OwnedBy.card_free` — how many commands are free
* `Counted.of_effect` — where the started requests are
* `Covered.of_effect` — the free commands still suffice behind every index
* `entry_finds_command_iff` — when every entry of `rmem_queue_rq` gets a command in its first pass
-/

namespace SystemDev.Octopus

open SystemDev.Library

variable {depth m : ℕ} {s t : Pool depth m} {op : PoolOp depth m}

/-- Whether a submitter has a request. -/
def Submitter.active : Submitter depth → ℕ
  | .idle => 0
  | _ => 1

/-- Whether a submitter has a request but no command yet, and looks next at or behind `p`. -/
def Submitter.waitingFrom (p : ℕ) : Submitter depth → ℕ
  | .entered _ => if p = 0 then 1 else 0
  | .scanning _ i => if p ≤ i then 1 else 0
  | _ => 0

/-- Whether a submitter has a command. -/
def Submitter.holds (x : Submitter depth) : ℕ := if x.cmd?.isSome then 1 else 0

/-- Whether the handler has a request that it has not ended. -/
def Handler.unfinished : Handler depth → ℕ
  | .polled _ => 1
  | .read _ _ => 1
  | .failed _ => 1
  | _ => 0

/-- Whether the handler has ended a request and not freed its command. -/
def Handler.releasing : Handler depth → ℕ
  | .ended _ => 1
  | _ => 0

theorem Submitter.waitingFrom_anti {p q : ℕ} (h : p ≤ q) (x : Submitter depth) :
    x.waitingFrom q ≤ x.waitingFrom p := by
  cases x with
  | entered rq =>
    simp only [Submitter.waitingFrom]
    split_ifs <;> omega
  | scanning rq i =>
    simp only [Submitter.waitingFrom]
    split_ifs <;> omega
  | idle | holding _ _ | stored _ _ => exact Nat.le_refl _

theorem Submitter.active_eq (x : Submitter depth) : x.active = x.waitingFrom 0 + x.holds := by
  cases x <;> simp [Submitter.active, Submitter.waitingFrom, Submitter.holds, Submitter.cmd?]

theorem Handler.busy_eq (x : Handler depth) :
    (if x.busy?.isSome then 1 else 0) = x.unfinished + x.releasing := by
  cases x <;> rfl

/-- The started requests that have no command yet and look next at or behind `p`. -/
def Pool.waitingFrom (s : Pool depth m) (p : ℕ) : ℕ := ∑ t, (s.submitters t).waitingFrom p

/-- The free commands at or behind `p`. -/
def Pool.freeFrom (s : Pool depth m) (p : ℕ) : ℕ :=
  ∑ k : Fin depth, if p ≤ k ∧ (s.queue k).freeState = true then 1 else 0

/-! ### Counting commands -/

section Commands

variable {owner : Fin depth → Owner m}

theorem OwnedBy.card_held (h : OwnedBy s owner) :
    (Finset.univ.filter fun k => ∃ t, owner k = .submitter t).card =
      ∑ t, (s.submitters t).holds := by
  refine card_range_option (fun t => (s.submitters t).cmd?) _ (fun k => ?_) ?_
  · exact exists_congr fun t => (h.held t k).symm
  · intro t u k ht hu
    have hown := ((h.held t k).mp ht).symm.trans ((h.held u k).mp hu)
    exact Owner.submitter.inj hown

theorem OwnedBy.card_wire (h : OwnedBy s owner) :
    (Finset.univ.filter fun k => owner k = .wire).card = s.outstanding.length := by
  have hset : (Finset.univ.filter fun k => owner k = .wire) =
      (s.outstanding.map Posting.cmd).toFinset := by
    ext k
    rw [Finset.mem_filter, List.mem_toFinset, h.wire k]
    exact and_iff_right (Finset.mem_univ k)
  rw [hset, List.toFinset_card_of_nodup h.wire_nodup, List.length_map]

theorem OwnedBy.card_busy (h : OwnedBy s owner) :
    (Finset.univ.filter fun k => owner k = .handler).card =
      s.handler.unfinished + s.handler.releasing := by
  rw [← Handler.busy_eq]
  have hcard := card_range_option (fun _ : Unit => s.handler.busy?)
    (fun k => owner k = .handler) (fun k => ?_) (fun _ _ _ _ _ => rfl)
  · simpa using hcard
  · rw [← h.busy k]
    exact ⟨fun hk => ⟨(), hk⟩, fun ⟨_, hk⟩ => hk⟩

/-- Every command is free or has one user. -/
theorem OwnedBy.card_free (h : OwnedBy s owner) :
    s.freeFrom 0 + (∑ t, (s.submitters t).holds) + s.outstanding.length +
      (s.handler.unfinished + s.handler.releasing) + s.failedPosts = depth := by
  have hone : ∀ o : Owner m, (if o = .nobody then 1 else 0) +
      (if ∃ t, o = .submitter t then 1 else 0) + (if o = .wire then 1 else 0) +
      (if o = .handler then 1 else 0) + (if o = .lost then 1 else 0) = 1 := by
    intro o
    -- an owner is of one kind
    cases o <;> simp
  have hfree : s.freeFrom 0 = ∑ k, if owner k = .nobody then 1 else 0 := by
    refine Finset.sum_congr rfl fun k _ => ?_
    simp only [Nat.zero_le, true_and, h.free k]
  rw [hfree, ← h.card_held, ← h.card_wire, ← h.card_busy, ← h.lost]
  simp only [Finset.card_filter, ← Finset.sum_add_distrib, hone]
  simp

end Commands

/-! ### Counting requests -/

/-- A started request is with a submitter, on the wire, or with the handler. -/
def Counted (s : Pool depth m) : Prop :=
  s.started = (∑ t, (s.submitters t).active) + s.outstanding.length + s.handler.unfinished

/-- A submitter with `a` requests moves to a position with `b`, and `c` work requests go on
the wire. -/
theorem Counted.of_move (h : Counted s) (u : Fin m) (x : Submitter depth) {a b c : ℕ}
    (hold : (s.submitters u).active = a) (hnew : x.active = b)
    (hsubmitters : t.submitters = Function.update s.submitters u x)
    (houtstanding : t.outstanding.length = s.outstanding.length + c)
    (hhandler : t.handler = s.handler) (hstarted : t.started = s.started + b + c - a) :
    Counted t := by
  have hsum := sum_apply_update Submitter.active s.submitters u x
  -- only the summand of the submitter that moves changes
  rw [hold, hnew, ← hsubmitters] at hsum
  rw [Counted] at h ⊢
  rw [hstarted, houtstanding, hhandler]
  omega

theorem Counted.of_effect (h : Counted s) (heff : s.Effect op t) : Counted t := by
  cases heff with
  | @enter u rq here =>
    exact h.of_move u (.entered rq) (a := 0) (b := 1) (c := 0) (by rw [here]; rfl) rfl rfl rfl rfl
      rfl
  | @refuse u rq here =>
    exact h.of_move u .idle (a := 1) (b := 0) (c := 0) (by rw [here]; rfl) rfl rfl rfl rfl rfl
  | @scan u rq here hpos =>
    exact h.of_move u (.scanning rq ⟨0, hpos⟩) (a := 1) (b := 1) (c := 0) (by rw [here]; rfl) rfl
      rfl rfl rfl rfl
  | @miss u rq k here taken =>
    exact h.of_move u (.scanning rq (cycleNext k)) (a := 1) (b := 1) (c := 0) (by rw [here]; rfl)
      rfl rfl rfl rfl rfl
  | @take u rq k here free =>
    exact h.of_move u (.holding rq k) (a := 1) (b := 1) (c := 0) (by rw [here]; rfl) rfl rfl rfl
      rfl rfl
  | @store u rq k here =>
    exact h.of_move u (.stored rq k) (a := 1) (b := 1) (c := 0) (by rw [here]; rfl) rfl rfl rfl
      rfl rfl
  | @post u rq k here =>
    exact h.of_move u .idle (a := 1) (b := 0) (c := 1) (by rw [here]; rfl) rfl rfl rfl rfl rfl
  | @postFail u rq k ret here refused =>
    exact h.of_move u .idle (a := 1) (b := 0) (c := 0) (by rw [here]; rfl) rfl rfl rfl rfl rfl
  | @complete w success here mem =>
    -- the request goes from the wire to the handler
    have hlen := List.length_erase_of_mem mem
    have hpos := List.length_pos_of_mem mem
    have hnew : (if success then Handler.polled w else .failed w).unfinished = 1 := by
      cases success <;> rfl
    rw [Counted, here] at h
    simp only [Counted, hnew, hlen]
    change s.started = _ + _ + 0 at h
    omega
  | readRq here | endFail here _ | storeFree here | clearRq here =>
    -- the handler keeps its request, or has none on either side
    rw [Counted, here] at h
    exact h
  | @endRq w rq here single =>
    rw [Counted, here] at h
    change s.started = _ + _ + 1 at h
    -- the request is over, its command is still with the handler
    change s.started - 1 = (∑ t, (s.submitters t).active) + s.outstanding.length + 0
    omega

theorem counted_init (depth m : ℕ) : Counted (Pool.init depth m) := by
  simp [Counted, Pool.init, Submitter.active, Handler.unfinished]

/-! ### Entries -/

/-- The block layer enters `rmem_queue_rq` while a tag of the queue is unused. -/
def Pool.Tagged (s : Pool depth m) : PoolOp depth m → Prop
  | .enter _ _ => s.started < depth
  | _ => True

/-- A scan that has come to the last command gets it. -/
def Submitter.GetsLast (q : RmemRdmaQueue depth) : Submitter depth → Prop
  | .scanning _ i => (i : ℕ) + 1 = depth → (q i).freeState = true
  | _ => True

/-- A request that enters has a free command, and no scan goes past the end of the queue: the one
that starts at the first command finds its own in the first pass. -/
def Pool.Serves (s : Pool depth m) : PoolOp depth m → Prop
  | .enter _ _ => ∃ k, (s.queue k).freeState = true
  | .test t => (s.submitters t).GetsLast s.queue
  | _ => True

/-- The steps of a scan. -/
def PoolOp.IsLook : PoolOp depth m → Prop
  | .scan _ => True
  | .test _ => True
  | _ => False

/-- In whatever order the waiting submitters now look, each gets a command in its first pass, even
if no command is freed meanwhile. -/
def Pool.Assured (s : Pool depth m) : Prop :=
  ∀ looks, (∀ op ∈ looks, PoolOp.IsLook op) → EachStep Pool.step Pool.Serves s looks

/-- The commands kept after their request has ended, by a refused post or by a release
still under way, are fewer than the unused tags. -/
def Pool.Spare (s : Pool depth m) : PoolOp depth m → Prop
  | .enter _ _ => s.failedPosts + s.handler.releasing < depth - s.started
  | _ => True

instance (q : RmemRdmaQueue depth) : ∀ x : Submitter depth, Decidable (x.GetsLast q)
  | .scanning _ i => inferInstanceAs (Decidable ((i : ℕ) + 1 = depth → (q i).freeState = true))
  | .idle | .entered _ | .holding _ _ | .stored _ _ => .isTrue trivial

instance : ∀ op, Decidable (s.Tagged op)
  | .enter _ _ => inferInstanceAs (Decidable (_ < _))
  | .refuse _ | .scan _ | .test _ | .storeRq _ | .post _ _ | .complete _ _ | .readRq | .endRq
  | .storeFree | .clearRq => .isTrue trivial

instance : ∀ op, Decidable (s.Serves op)
  | .enter _ _ => inferInstanceAs (Decidable (∃ k, (s.queue k).freeState = true))
  | .test t => inferInstanceAs (Decidable ((s.submitters t).GetsLast s.queue))
  | .refuse _ | .scan _ | .storeRq _ | .post _ _ | .complete _ _ | .readRq | .endRq
  | .storeFree | .clearRq => .isTrue trivial

instance : ∀ op, Decidable (s.Spare op)
  | .enter _ _ => inferInstanceAs (Decidable (_ < _))
  | .refuse _ | .scan _ | .test _ | .storeRq _ | .post _ _ | .complete _ _ | .readRq | .endRq
  | .storeFree | .clearRq => .isTrue trivial

/-- The two counts. -/
def Pool.Tallied (s : Pool depth m) : Prop := (∃ owner, OwnedBy s owner) ∧ Counted s

theorem Pool.Tallied.of_step (h : s.Tallied) (hstep : s.step op = some t) : t.Tallied := by
  obtain ⟨⟨owner, hown⟩, hcounted⟩ := h
  have heff := Pool.step_effect hstep
  exact ⟨hown.of_effect heff, hcounted.of_effect heff⟩

/-- What the counts say at one entry: there is a command to spare exactly if more are free than
are waited for. -/
theorem Pool.Tallied.spare_iff (h : s.Tallied) {u : Fin m} {rq : Request}
    (htagged : s.Tagged (.enter u rq)) :
    s.Spare (.enter u rq) ↔ s.waitingFrom 0 < s.freeFrom 0 := by
  obtain ⟨⟨owner, hown⟩, hcounted⟩ := h
  have hfree := hown.card_free
  have hactive : ∑ v, (s.submitters v).active =
      s.waitingFrom 0 + ∑ v, (s.submitters v).holds := by
    rw [Pool.waitingFrom, ← Finset.sum_add_distrib]
    exact Finset.sum_congr rfl fun v _ => Submitter.active_eq _
  rw [Counted, hactive] at hcounted
  change s.started < depth at htagged
  change s.failedPosts + s.handler.releasing < depth - s.started ↔ _
  -- free = depth - holding - wire - handler - lost, and the started requests are those that
  -- hold a command or wait for one, those on the wire and the unfinished one
  omega

/-! ### The first pass -/

/-- From each index on there are as many free commands as submitters still to come there. -/
def Covered (s : Pool depth m) : Prop := ∀ p, s.waitingFrom p ≤ s.freeFrom p

section FirstPass

theorem Pool.waitingFrom_of_update {u : Fin m} {x : Submitter depth}
    (h : t.submitters = Function.update s.submitters u x) (p : ℕ) :
    t.waitingFrom p + (s.submitters u).waitingFrom p = s.waitingFrom p + x.waitingFrom p := by
  rw [Pool.waitingFrom, h]
  exact sum_apply_update (Submitter.waitingFrom p) s.submitters u x

theorem Pool.freeFrom_of_update {k : Fin depth} {c : RmemRdmaCommand}
    (h : t.queue = Function.update s.queue k c) (p : ℕ) :
    t.freeFrom p + (if p ≤ k ∧ (s.queue k).freeState = true then 1 else 0) =
      s.freeFrom p + (if p ≤ k ∧ c.freeState = true then 1 else 0) := by
  rw [Pool.freeFrom, h]
  exact sum_index_update
    (fun (i : Fin depth) (c : RmemRdmaCommand) => if p ≤ i ∧ c.freeState = true then 1 else 0)
    s.queue k c

/-- A submitter moves, and the free commands make up for what it now waits for. -/
theorem Covered.of_move (u : Fin m) (x : Submitter depth)
    (hsubmitters : t.submitters = Function.update s.submitters u x)
    (h : ∀ p, s.waitingFrom p + x.waitingFrom p ≤ t.freeFrom p + (s.submitters u).waitingFrom p) :
    Covered t := by
  intro p
  have hsum := Pool.waitingFrom_of_update hsubmitters p
  have hle := h p
  omega

/-- A submitter moves to a position where it waits for no command. -/
theorem Covered.of_leave (h : Covered s) (u : Fin m) (x : Submitter depth)
    (hsubmitters : t.submitters = Function.update s.submitters u x)
    (hx : ∀ p, x.waitingFrom p = 0) (hfree : ∀ p, t.freeFrom p = s.freeFrom p) : Covered t := by
  refine Covered.of_move u x hsubmitters fun p => ?_
  rw [hx, hfree]
  exact (h p).trans (Nat.le_add_right _ _)

/-- A submitter and the command it takes leave together. -/
theorem Covered.of_take (h : Covered s) {u : Fin m} {rq : Request} {k : Fin depth}
    {c : RmemRdmaCommand} (here : s.submitters u = .scanning rq k)
    (free : (s.queue k).freeState = true) (taken : c.freeState = false)
    (hsubmitters : t.submitters = Function.update s.submitters u (.holding rq k))
    (hqueue : t.queue = Function.update s.queue k c) : Covered t := by
  refine Covered.of_move u (.holding rq k) hsubmitters fun p => ?_
  have hfree := Pool.freeFrom_of_update hqueue p
  have hcovered := h p
  simp only [free, taken, and_true, Bool.false_eq_true, and_false, if_false] at hfree
  simp only [here, Submitter.waitingFrom]
  omega

/-- A command is written and stays as free as it was, or is freed. -/
theorem Pool.freeFrom_le_of_update {k : Fin depth} {c : RmemRdmaCommand}
    (hqueue : t.queue = Function.update s.queue k c)
    (hc : (s.queue k).freeState = true → c.freeState = true) (p : ℕ) :
    s.freeFrom p ≤ t.freeFrom p := by
  have hfree := Pool.freeFrom_of_update hqueue p
  by_cases hk : (s.queue k).freeState = true
  · rw [hk, hc hk] at hfree
    omega
  · simp only [hk, Bool.false_eq_true, and_false, if_false] at hfree
    omega

/-- A covered scan finds the last command free. -/
theorem Covered.getsLast (h : Covered s) (u : Fin m) : (s.submitters u).GetsLast s.queue := by
  cases here : s.submitters u with
  | scanning rq i =>
    intro hlast
    by_contra htaken
    have hone : (s.submitters u).waitingFrom i ≤ s.waitingFrom i :=
      Finset.single_le_sum (f := fun v => (s.submitters v).waitingFrom i)
        (fun v _ => Nat.zero_le _) (Finset.mem_univ u)
    -- nothing lies behind the last command
    have hnone : s.freeFrom i = 0 := by
      refine Finset.sum_eq_zero fun k _ => if_neg ?_
      rintro ⟨hle, hk⟩
      have hki : k = i := Fin.ext (by have := k.isLt; omega)
      exact htaken (hki ▸ hk)
    have hcovered := h i
    rw [here, Submitter.waitingFrom, if_pos (Nat.le_refl _)] at hone
    omega
  | idle | entered _ | holding _ _ | stored _ _ => trivial

/-- A miss moves a submitter behind a command that is taken. -/
theorem Covered.of_miss (h : Covered s) {u : Fin m} {rq : Request} {i : Fin depth}
    (here : s.submitters u = .scanning rq i) (taken : (s.queue i).freeState = false) :
    Covered (s.move u (.scanning rq (cycleNext i))) := by
  have hnext : ((cycleNext i : Fin depth) : ℕ) = i + 1 := by
    have hlast := h.getsLast u
    rw [here] at hlast
    have hne : (i : ℕ) + 1 ≠ depth := fun heq => by simp [hlast heq] at taken
    exact Nat.mod_eq_of_lt (by have := i.isLt; omega)
  refine Covered.of_move u (.scanning rq (cycleNext i)) rfl fun p => ?_
  change _ ≤ s.freeFrom p + _
  have hcovered := h p
  simp only [here, Submitter.waitingFrom, hnext]
  by_cases hp : p = i + 1
  · -- the submitter now counts here; it was covered one command earlier, which is not free
    have hbefore := h i
    have hfree : s.freeFrom i = s.freeFrom p := by
      refine Finset.sum_congr rfl fun k _ => if_congr ?_ rfl rfl
      refine and_congr_left fun hk => ?_
      have hki : k ≠ i := fun heq => by simp [← heq, hk] at taken
      have hval : (k : ℕ) ≠ i := fun heq => hki (Fin.ext heq)
      omega
    have hothers : s.waitingFrom p < s.waitingFrom i := by
      refine Finset.sum_lt_sum (fun v _ => Submitter.waitingFrom_anti (by omega) _)
        ⟨u, Finset.mem_univ u, ?_⟩
      rw [here]
      simp [Submitter.waitingFrom, hp]
    split_ifs <;> omega
  · split_ifs <;> omega

theorem Covered.of_effect (h : Covered s) (heff : s.Effect op t)
    (hspare : ∀ u rq, op = .enter u rq → s.waitingFrom 0 < s.freeFrom 0) : Covered t := by
  cases heff with
  | @enter u rq here =>
    refine Covered.of_move u (.entered rq) rfl fun p => ?_
    have hcovered := h p
    have hroom := hspare u rq rfl
    change _ ≤ s.freeFrom p + _
    -- the new request counts from the first command only
    simp only [here, Submitter.waitingFrom]
    split_ifs with hp
    · subst hp
      omega
    · omega
  | @refuse u rq here => exact h.of_leave u .idle rfl (fun _ => rfl) fun _ => rfl
  | @scan u rq here hpos =>
    -- the request was counted at the first command already
    refine Covered.of_move u (.scanning rq ⟨0, hpos⟩) rfl fun p => ?_
    simp only [here, Submitter.waitingFrom, Nat.le_zero]
    exact Nat.add_le_add_right (h p) _
  | @miss u rq i here taken => exact h.of_miss here taken
  | @take u rq k here free => exact h.of_take here free rfl rfl rfl
  | @store u rq k here =>
    refine h.of_leave u (.stored rq k) rfl (fun _ => rfl) fun p => ?_
    exact Nat.add_right_cancel (Pool.freeFrom_of_update (s := s) (k := k)
      (c := { s.queue k with ioRq := some rq }) rfl p)
  | @post u rq k here => exact h.of_leave u .idle rfl (fun _ => rfl) fun _ => rfl
  | @postFail u rq k ret here refused => exact h.of_leave u .idle rfl (fun _ => rfl) fun _ => rfl
  | complete here mem | readRq here | endRq here single | endFail here several => exact h
  | @storeFree w here =>
    exact fun p => (h p).trans
      (Pool.freeFrom_le_of_update (s := s) (k := w.cmd) rfl (fun _ => rfl) p)
  | @clearRq w here =>
    exact fun p => (h p).trans (Pool.freeFrom_le_of_update (s := s) (k := w.cmd)
      (c := { s.queue w.cmd with ioRq := none }) rfl id p)

theorem covered_init (depth m : ℕ) : Covered (Pool.init depth m) := fun p => by
  simp [Pool.waitingFrom, Pool.init, Submitter.waitingFrom]

/-- A look does not enter. -/
theorem Covered.of_look (h : Covered s) (hlook : op.IsLook) (hstep : s.step op = some t) :
    Covered t := by
  refine h.of_effect (Pool.step_effect hstep) ?_
  rintro u rq rfl
  exact hlook.elim

theorem Covered.serves_of_look (h : Covered s) (hlook : op.IsLook) : s.Serves op := by
  cases op with
  | test u => exact h.getsLast u
  | enter u rq => exact hlook.elim
  | _ => trivial

theorem Covered.assured (h : Covered s) : s.Assured := by
  intro looks hlooks
  induction looks generalizing s with
  | nil => trivial
  | cons op looks ih =>
    have hlook := hlooks op List.mem_cons_self
    refine ⟨h.serves_of_look hlook, ?_⟩
    cases hstep : s.step op with
    | none => trivial
    | some t => exact ih (h.of_look hlook hstep) fun a ha => hlooks a (List.mem_cons_of_mem op ha)

end FirstPass

/-! ### A scan that does not end in its first pass -/

section SecondPass

/-- The looks that a submitter has before it in its first pass, and the start of its scan. -/
def Submitter.looksLeft : Submitter depth → ℕ
  | .entered _ => depth + 1
  | .scanning _ i => depth - i
  | _ => 0

theorem Pool.Assured.of_look (h : s.Assured) (hlook : op.IsLook) (hstep : s.step op = some t) :
    t.Assured := by
  intro looks hlooks
  have hall := h (op :: looks) (List.forall_mem_cons.mpr ⟨hlook, hlooks⟩)
  exact ((eachStep_cons_of_step hstep).mp hall).2

theorem exists_waiting (h : 0 < s.waitingFrom 0) :
    ∃ u rq, s.submitters u = .entered rq ∨ ∃ i, s.submitters u = .scanning rq i := by
  obtain ⟨u, -, hu⟩ := Finset.exists_ne_zero_of_sum_ne_zero (Nat.pos_iff_ne_zero.mp h)
  cases here : s.submitters u with
  | entered rq => exact ⟨u, rq, Or.inl here⟩
  | scanning rq i => exact ⟨u, rq, Or.inr ⟨i, here⟩⟩
  | idle | holding _ _ | stored _ _ =>
    rw [here] at hu
    exact absurd rfl hu

/-- The looks that all submitters together have before them. -/
def Pool.looksLeft (s : Pool depth m) : ℕ := ∑ u, (s.submitters u).looksLeft

theorem Pool.looksLeft_of_update {u : Fin m} {x : Submitter depth}
    (h : t.submitters = Function.update s.submitters u x) :
    t.looksLeft + (s.submitters u).looksLeft = s.looksLeft + x.looksLeft := by
  rw [Pool.looksLeft, h]
  exact sum_apply_update Submitter.looksLeft s.submitters u x

/-- More submitters wait than commands are free, and one of them looks: either it goes past the end
of the queue, or there is one look less before them and still no command for one of them. -/
theorem exists_look (hdepth : 0 < depth) (h : s.freeFrom 0 < s.waitingFrom 0) :
    ∃ op, op.IsLook ∧ (¬ s.Serves op ∨ ∃ t, s.step op = some t ∧
      t.looksLeft < s.looksLeft ∧ t.freeFrom 0 < t.waitingFrom 0) := by
  have hwaiting : 0 < s.waitingFrom 0 := Nat.zero_lt_of_lt h
  obtain ⟨u, rq, here | ⟨i, here⟩⟩ := exists_waiting hwaiting
  · -- it starts its scan at the first command
    let t := s.move u (.scanning rq ⟨0, hdepth⟩)
    have hlooks : t.looksLeft + _ = _ := Pool.looksLeft_of_update (s := s) rfl
    have hwaits : t.waitingFrom 0 + _ = _ := Pool.waitingFrom_of_update (s := s) rfl 0
    have hfree : t.freeFrom 0 = s.freeFrom 0 := rfl
    refine ⟨.scan u, trivial, Or.inr ⟨t, by simp [Pool.step, here, hdepth, t], ?_, ?_⟩⟩
    · simp only [here, Submitter.looksLeft] at hlooks
      omega
    · simp only [here, Submitter.waitingFrom, Nat.le_refl, if_true] at hwaits
      omega
  · have hi := i.isLt
    refine ⟨.test u, trivial, ?_⟩
    by_cases hfree : (s.queue i).freeState = true
    · -- it takes a command, so one less waits and one less is free
      let t := (s.setCmd i { s.queue i with freeState := false }).move u (.holding rq i)
      have hlooks : t.looksLeft + _ = _ := Pool.looksLeft_of_update (s := s) rfl
      have hwaits : t.waitingFrom 0 + _ = _ := Pool.waitingFrom_of_update (s := s) rfl 0
      have hleft : t.freeFrom 0 + _ = _ := Pool.freeFrom_of_update (s := s) (k := i) rfl 0
      refine Or.inr ⟨t, by simp [Pool.step, here, hfree, t], ?_, ?_⟩
      · simp only [here, Submitter.looksLeft] at hlooks
        omega
      · simp only [here, Submitter.waitingFrom, Nat.zero_le, if_true] at hwaits
        simp only [hfree, Nat.zero_le, and_true, if_true, Bool.false_eq_true, and_false,
          if_false] at hleft
        omega
    · by_cases hlast : (i : ℕ) + 1 = depth
      · -- the last command is taken, so the scan starts over
        refine Or.inl fun hserves => hfree ?_
        change (s.submitters u).GetsLast s.queue at hserves
        rw [here] at hserves
        exact hserves hlast
      · -- it goes on to the next command
        have hnext : ((cycleNext i : Fin depth) : ℕ) = i + 1 := Nat.mod_eq_of_lt (by omega)
        let t := s.move u (.scanning rq (cycleNext i))
        have hlooks : t.looksLeft + _ = _ := Pool.looksLeft_of_update (s := s) rfl
        have hwaits : t.waitingFrom 0 + _ = _ := Pool.waitingFrom_of_update (s := s) rfl 0
        have hsame : t.freeFrom 0 = s.freeFrom 0 := rfl
        refine Or.inr ⟨t, by simp [Pool.step, here, hfree, t], ?_, ?_⟩
        · simp only [here, Submitter.looksLeft, hnext] at hlooks
          omega
        · simp only [here, Submitter.waitingFrom, Nat.zero_le, if_true] at hwaits
          omega

/-- With more submitters waiting than commands free, some order of their looks brings one of them
past the end of the queue. -/
theorem not_assured_of_free_lt (hdepth : 0 < depth) (h : s.freeFrom 0 < s.waitingFrom 0) :
    ¬ s.Assured := by
  -- the looks before the submitters run out, so one of them goes past the end
  induction hn : s.looksLeft using Nat.strong_induction_on generalizing s with
  | _ n ih =>
    intro hassured
    obtain ⟨op, hlook, hend | ⟨t, hstep, hlooks, hfree⟩⟩ := exists_look hdepth h
    · exact hend (hassured [op] (by simpa using hlook)).1
    · exact ih t.looksLeft (hn ▸ hlooks) hfree rfl (hassured.of_look hlook hstep)

end SecondPass

/-! ### Whole runs -/

/-- The counts agree, and the free commands suffice for all that wait. -/
def Pool.InOrder (s : Pool depth m) : Prop := s.Tallied ∧ Covered s

theorem Pool.InOrder.of_step (h : s.InOrder) (htagged : s.Tagged op) (hspare : s.Spare op)
    (hstep : s.step op = some t) : t.InOrder := by
  refine ⟨h.1.of_step hstep, h.2.of_effect (Pool.step_effect hstep) ?_⟩
  rintro u rq rfl
  exact (h.1.spare_iff htagged).mp hspare

theorem Pool.InOrder.serves (h : s.InOrder) (htagged : s.Tagged op) (hspare : s.Spare op) :
    s.Serves op := by
  cases op with
  | enter u rq =>
    have hroom := (h.1.spare_iff htagged).mp hspare
    have hsum := Nat.ne_of_gt (Nat.zero_lt_of_lt hroom)
    obtain ⟨k, -, hk⟩ := Finset.exists_ne_zero_of_sum_ne_zero hsum
    exact ⟨k, (of_not_not fun hnot => hk (if_neg hnot)).2⟩
  | test u => exact h.2.getsLast u
  | _ => trivial

/-- An entry without a command to spare leaves a state in which a scan may not end. -/
theorem Pool.Tallied.spare_of_assured (h : s.Tallied) (htagged : s.Tagged op)
    (hstep : s.step op = some t) (hassured : t.Assured) : s.Spare op := by
  cases op with
  | enter u rq =>
    refine (h.spare_iff htagged).mpr ?_
    by_contra hnone
    cases Pool.step_effect hstep with
    | enter here =>
      -- one more waits behind the entry, and no more commands are free
      refine not_assured_of_free_lt (Nat.zero_lt_of_lt htagged) ?_ hassured
      have hwaits := Pool.waitingFrom_of_update (s := s) (u := u) (x := .entered rq)
        (t := { s.move u (.entered rq) with started := s.started + 1 }) rfl 0
      change s.freeFrom 0 < _
      rw [here] at hwaits
      change _ + 0 = _ + 1 at hwaits
      exact Nat.lt_of_lt_of_eq (Nat.lt_succ_of_le (Nat.le_of_not_lt hnone)) hwaits.symm
  | _ => trivial

/-- Along every run in which the block layer keeps to its tags, every entry finds a free
command, no scan goes past the end of the queue, and in every state the free commands suffice for
all scans, in whatever order they look, if and only if every entry has a command to spare. -/
theorem entry_finds_command_iff (depth m : ℕ) (ops : List (PoolOp depth m)) (s : Pool depth m)
    (hops : EachStep Pool.step Pool.Tagged (Pool.init depth m) ops)
    (hrun : run Pool.step (Pool.init depth m) ops = some s) :
    (EachStep Pool.step Pool.Serves (Pool.init depth m) ops ∧
        EveryState Pool.step Pool.Assured (Pool.init depth m) ops) ↔
      EachStep Pool.step Pool.Spare (Pool.init depth m) ops := by
  have hinit : (Pool.init depth m).InOrder :=
    ⟨⟨⟨_, ownedBy_init depth m⟩, counted_init depth m⟩, covered_init depth m⟩
  have hassured := everyState_iff_eachStep (fun _ _ _ h ht hs hstep => h.of_step ht hs hstep)
    (fun _ h => h.2.assured) (fun _ _ _ h ht hstep ha => h.1.spare_of_assured ht hstep ha)
    hinit hops hrun
  refine ⟨fun h => hassured.mp h.2, fun hspare => ⟨?_, hassured.mpr hspare⟩⟩
  exact eachStep_of_invariant (fun _ _ _ h ht hs hstep => h.of_step ht hs hstep)
    (fun _ _ h ht hs => h.serves ht hs) hinit hops hspare

/-- A request is written and a second one enters after its command was freed. -/
theorem entry_finds_command_iff_oneWrite :
    EachStep Pool.step Pool.Serves (Pool.init rmemQueueDepth 2)
        (oneWrite ++ [.enter 1 pageWrite, .scan 1, .test 1]) ∧
      EveryState Pool.step Pool.Assured (Pool.init rmemQueueDepth 2)
        (oneWrite ++ [.enter 1 pageWrite, .scan 1, .test 1]) := by
  have hends : (run Pool.step (Pool.init rmemQueueDepth 2)
      (oneWrite ++ [.enter 1 pageWrite, .scan 1, .test 1])).isSome := by decide +kernel
  obtain ⟨s, hs⟩ := Option.isSome_iff_exists.mp hends
  exact (entry_finds_command_iff rmemQueueDepth 2 _ s (by decide +kernel) hs).mpr
    (by decide +kernel)

/-- The steps of a request whose post is refused after the scan has passed `i` commands. -/
def refusedWrite (i : ℕ) : List (PoolOp rmemQueueDepth 1) :=
  [.enter 0 pageWrite, .scan 0] ++ List.replicate (i + 1) (.test 0) ++ [.storeRq 0, .post 0 (-12)]

/-- After as many refused posts as the queue has commands no request is unfinished, the next one
finds no free command, and its scan goes past the end. -/
theorem entry_finds_none_after_refused_posts :
    let ops := (List.range rmemQueueDepth).flatMap refusedWrite ++
      [.enter 0 pageWrite, .scan 0] ++ List.replicate rmemQueueDepth (.test 0)
    EachStep Pool.step Pool.Tagged (Pool.init rmemQueueDepth 1) ops ∧
      (run Pool.step (Pool.init rmemQueueDepth 1) ops).isSome ∧
      ¬ EachStep Pool.step Pool.Serves (Pool.init rmemQueueDepth 1) ops := by
  refine ⟨?_, ?_, ?_⟩
  · decide +kernel
  · decide +kernel
  · decide +kernel

end SystemDev.Octopus
