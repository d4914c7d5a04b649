import Mathlib.Data.List.Basic

/-!
# Filling a table behind a cursor

A table of fixed length is filled from a cursor on: each new entry goes to the cursor
and the cursor moves by one. `overwrite` is the table after a whole list of entries, `push` the
single step, which fails at the end of the table.
-/

namespace SystemDev.Library

variable {α : Type*} {l xs : List α} {p : ℕ} {x : α}

/-- Replace the entries of `l` from position `p` on by `xs`. -/
def overwrite (l : List α) (p : ℕ) (xs : List α) : List α :=
  l.take p ++ xs ++ l.drop (p + xs.length)

@[simp] theorem overwrite_nil : overwrite l p [] = l := by
  simp [overwrite]

/-- Overwriting entry by entry. -/
theorem overwrite_set (hp : p < l.length) :
    overwrite (l.set p x) (p + 1) xs = overwrite l p (x :: xs) := by
  have hlen : (l.take p).length = p := List.length_take_of_le (Nat.le_of_lt hp)
  have htake : (l.set p x).take (p + 1) = l.take p ++ [x] := by
    rw [List.set_eq_take_append_cons_drop, if_pos hp, List.take_append, hlen,
      List.take_of_length_le (by omega)]
    simp
  have hdrop : (l.set p x).drop (p + 1 + xs.length) = l.drop (p + (x :: xs).length) := by
    rw [List.drop_set_of_lt (by omega), List.length_cons]
    congr 1
    omega
  simp only [overwrite, htake, hdrop, List.append_assoc, List.singleton_append]

theorem length_overwrite (h : p + xs.length ≤ l.length) : (overwrite l p xs).length = l.length := by
  simp [overwrite]
  omega

/-- Inside the list of new entries the table has these. -/
theorem getElem?_overwrite_of_lt {i : ℕ} (hp : p ≤ l.length) (hi : p ≤ i)
    (hlt : i < p + xs.length) : (overwrite l p xs)[i]? = xs[i - p]? := by
  have hlen : (l.take p).length = p := List.length_take_of_le hp
  rw [overwrite, List.append_assoc, List.getElem?_append_right (by omega), hlen,
    List.getElem?_append_left (by omega)]

/-- Outside of them it is as before. -/
theorem getElem?_overwrite_of_not_mem {i : ℕ} (hp : p ≤ l.length)
    (hi : i < p ∨ p + xs.length ≤ i) : (overwrite l p xs)[i]? = l[i]? := by
  have hlen : (l.take p).length = p := List.length_take_of_le hp
  rcases hi with hlt | hge
  · rw [overwrite, List.append_assoc, List.getElem?_append_left (by omega),
      List.getElem?_take_of_lt hlt]
  · rw [overwrite, List.getElem?_append_right (by simp; omega), List.getElem?_drop]
    congr 1
    simp
    omega

/-- Put an entry at the cursor, if there is room. -/
def push (g : List α × ℕ) (x : α) : Option (List α × ℕ) :=
  if g.2 < g.1.length then some (g.1.set g.2 x, g.2 + 1) else none

/-- A list of entries fits if and only if there is room for all of them. -/
theorem foldlM_push (hp : p ≤ l.length) :
    xs.foldlM push (l, p) =
      if p + xs.length ≤ l.length then some (overwrite l p xs, p + xs.length) else none := by
  induction xs generalizing l p with
  | nil =>
    rw [overwrite_nil, List.length_nil, Nat.add_zero, if_pos hp]
    rfl
  | cons x xs ih =>
    rw [List.foldlM_cons, push, List.length_cons]
    by_cases hroom : p < l.length
    · rw [if_pos hroom]
      have hrest := ih (l := l.set p x) (p := p + 1) (by rw [List.length_set]; omega)
      rw [List.length_set, overwrite_set hroom] at hrest
      rw [Nat.add_comm xs.length 1, ← Nat.add_assoc]
      exact hrest
    · rw [if_neg hroom, if_neg (by omega)]
      rfl

end SystemDev.Library
