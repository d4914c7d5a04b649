import Mathlib.Data.List.Basic

/-!
# Pull iterators

An iterator object answers whether it has a next element, and hands it out while it
changes its own state. A call may throw (`none`), and it may hand out `null`. `Yields`
says which elements an iterator hands out when it is asked as long as it has more.

Loops over an iterator need a bound on the number of turns. `left` is that bound; it is no
method of the object.
-/

namespace SystemDev.Library

/-- The methods of an iterator over elements of type `α`. -/
class Pull (ι : Type*) (α : outParam Type*) where
  hasNext : ι → Bool
  next : ι → Option (Option α × ι)
  left : ι → ℕ

variable {ι α β : Type*} [Pull ι α]

/-- The iterator hands out the elements of the list and then has no more. -/
def Yields : ι → List α → Prop
  | it, [] => Pull.hasNext it = false
  | it, a :: l => Pull.hasNext it = true ∧ l.length < Pull.left it ∧
      ∃ it', Pull.next it = some (some a, it') ∧ Yields it' l

theorem Yields.length_le {it : ι} {l : List α} (h : Yields it l) : l.length ≤ Pull.left it := by
  cases l with
  | nil => exact Nat.zero_le _
  | cons a l => exact h.2.1

/-- `for (; it.hasNext(); ) b.add(it.next());`, where `add` may throw. -/
def drain (add : β → α → Option β) : ℕ → ι → β → Option β
  | 0, _, _ => none
  | fuel + 1, it, b =>
    if Pull.hasNext it then
      match Pull.next it with
      | some (some a, it') => (add b a).bind (drain add fuel it')
      | _ => none
    else some b

/-- The loop adds what the iterator yields, in order. -/
theorem drain_of_yields {add : β → α → Option β} {it : ι} {l : List α} (h : Yields it l)
    {fuel : ℕ} (hfuel : l.length < fuel) (b : β) : drain add fuel it b = l.foldlM add b := by
  induction l generalizing it fuel b with
  | nil =>
    obtain ⟨fuel, rfl⟩ := Nat.exists_eq_add_of_lt hfuel
    have hend : Pull.hasNext it = false := h
    simp [drain, hend]
  | cons a l ih =>
    obtain ⟨hmore, -, it', hnext, hrest⟩ := h
    obtain ⟨fuel, rfl⟩ : ∃ n, fuel = n + 1 := ⟨fuel - 1, by rw [List.length_cons] at hfuel; omega⟩
    rw [drain, if_pos hmore, hnext, List.foldlM_cons]
    have hfuel' : l.length < fuel := by simpa using hfuel
    exact congrArg (Option.bind (add b a)) (funext fun c => ih hrest hfuel' c)

end SystemDev.Library
