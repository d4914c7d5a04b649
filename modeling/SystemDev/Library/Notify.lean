import Mathlib.Data.List.Basic

/-!
# Queues with a one-shot notification

Entries are added to a queue by one party and taken by calls of a handler. The queue
raises a handler call only when it is armed, and raising one disarms it: an entry that is
added to a disarmed queue, or before the queue was armed, raises nothing. Calls that were
raised and have not started are pending.

A handler may arm the queue before it takes entries, or after. `Heard` is what the first
order keeps: the next entry will raise a call, or a call is still to come.
-/

namespace SystemDev.Library

variable {α : Type*}

/-- The queue, whether it is armed, and the number of pending handler calls. -/
structure NotifyQueue (α : Type*) where
  entries : List α
  armed : Bool
  pending : ℕ

namespace NotifyQueue

/-- The queue as it is created. -/
def empty : NotifyQueue α := ⟨[], false, 0⟩

/-- An entry is added; an armed queue raises a call. -/
def add (q : NotifyQueue α) (x : α) : NotifyQueue α where
  entries := q.entries ++ [x]
  armed := false
  pending := q.pending + q.armed.toNat

/-- Ask for a call at the next entry. -/
def arm (q : NotifyQueue α) : NotifyQueue α := { q with armed := true }

/-- A pending call starts. -/
def start (q : NotifyQueue α) : NotifyQueue α := { q with pending := q.pending - 1 }

/-- Take the entries from the front. -/
def drop (q : NotifyQueue α) : NotifyQueue α := { q with entries := q.entries.tail }

/-- A call will be raised by the next entry or is pending. -/
def Heard (q : NotifyQueue α) : Prop := q.armed = true ∨ 0 < q.pending

/-- Nothing is left for a call that is not coming. -/
def Settled (q : NotifyQueue α) : Prop := q.pending = 0 → q.entries = [] ∧ q.armed = true

variable {q : NotifyQueue α} {x : α}

@[simp] theorem add_entries : (q.add x).entries = q.entries ++ [x] := rfl

@[simp] theorem arm_entries : q.arm.entries = q.entries := rfl

@[simp] theorem arm_pending : q.arm.pending = q.pending := rfl

@[simp] theorem start_entries : q.start.entries = q.entries := rfl

@[simp] theorem drop_entries : q.drop.entries = q.entries.tail := rfl

theorem heard_arm : q.arm.Heard := .inl rfl

theorem Heard.add (h : q.Heard) : (q.add x).Heard := by
  right
  rcases h with harmed | hpending
  · simp [NotifyQueue.add, harmed]
  · exact Nat.lt_of_lt_of_le hpending (Nat.le_add_right _ _)

theorem Heard.drop (h : q.Heard) : q.drop.Heard := h

theorem settled_arm_empty : (empty : NotifyQueue α).arm.Settled := fun _ => ⟨rfl, rfl⟩

/-- An entry added to a settled queue raises a call, or finds one pending. -/
theorem Settled.add (h : q.Settled) : (q.add x).Settled := by
  intro hnone
  have hpending : q.pending = 0 ∧ q.armed.toNat = 0 := Nat.add_eq_zero_iff.mp hnone
  have harmed := (h hpending.1).2
  rw [harmed] at hpending
  exact absurd hpending.2 Nat.one_ne_zero

/-- A call that was heard and left the queue empty leaves it settled. -/
theorem Heard.settled (h : q.Heard) (hempty : q.entries = []) : q.Settled := by
  intro hnone
  exact ⟨hempty, h.resolve_right (Nat.not_lt.mpr (Nat.le_of_eq hnone))⟩

end NotifyQueue

end SystemDev.Library
