import Mathlib.Data.List.Basic

/-!
# Cursors into a byte string

A hand-written scanner moves an index with `do i++; while (p data[i])`. `advance` is
that loop on a list; it is `none` when the loop reads past the end, which a scanner in a
language without bounds checks does not notice. What lies at and behind a cursor `i` is
`data.drop i`.
-/

namespace SystemDev.Library

variable {α : Type*} {p : α → Bool}

/-- The loop on the elements behind the cursor. -/
def advanceThrough (p : α → Bool) : List α → ℕ → Option ℕ
  | [], _ => none
  | a :: rest, i => if p a then advanceThrough p rest (i + 1) else some (i + 1)

/-- `do i++; while (p data[i])`. -/
def advance (p : α → Bool) (data : List α) (i : ℕ) : Option ℕ :=
  advanceThrough p (data.drop (i + 1)) i

section Drop

variable {data tail : List α} {a : α} {i : ℕ}

theorem getElem?_of_drop (h : data.drop i = a :: tail) : data[i]? = some a := by
  rw [← List.head?_drop, h, List.head?_cons]

theorem drop_succ_of_drop (h : data.drop i = a :: tail) : data.drop (i + 1) = tail := by
  rw [← List.drop_drop, h, List.drop_one, List.tail_cons]

theorem drop_of_getElem? (h : data[i]? = some a) : data.drop i = a :: data.drop (i + 1) := by
  obtain ⟨hi, ha⟩ := List.getElem?_eq_some_iff.1 h
  rw [List.drop_eq_getElem_cons hi, ha]

end Drop

theorem lt_of_advanceThrough {rest : List α} {i j : ℕ} (h : advanceThrough p rest i = some j) :
    i < j := by
  induction rest generalizing i with
  | nil => cases h
  | cons a rest ih =>
    rw [advanceThrough] at h
    split at h
    · exact Nat.lt_of_succ_lt (ih h)
    · cases h
      exact Nat.lt_succ_self i

/-- The loop moves the cursor. -/
theorem lt_of_advance {data : List α} {i j : ℕ} (h : advance p data i = some j) : i < j :=
  lt_of_advanceThrough h

theorem advanceThrough_append {skipped : List α} {a : α} (rest : List α) (i : ℕ)
    (hskip : ∀ b ∈ skipped, p b) (hstop : p a = false) :
    advanceThrough p (skipped ++ a :: rest) i = some (i + skipped.length + 1) := by
  induction skipped generalizing i with
  | nil => simp [advanceThrough, hstop]
  | cons b skipped ih =>
    rw [List.cons_append, advanceThrough, if_pos (hskip b List.mem_cons_self),
      ih (i + 1) fun c hc => hskip c (List.mem_cons_of_mem b hc), List.length_cons]
    congr 1
    omega

/-- The loop stops on the first element that fails the test. -/
theorem advance_append {data skipped rest : List α} {a : α} {i : ℕ}
    (hdrop : data.drop (i + 1) = skipped ++ a :: rest)
    (hskip : ∀ b ∈ skipped, p b) (hstop : p a = false) :
    advance p data i = some (i + skipped.length + 1) := by
  rw [advance, hdrop, advanceThrough_append rest i hskip hstop]

theorem exists_of_advanceThrough {rest : List α} {i j : ℕ}
    (h : advanceThrough p rest i = some j) :
    ∃ skipped a tail, rest = skipped ++ a :: tail ∧ (∀ b ∈ skipped, p b) ∧ p a = false ∧
      j = i + skipped.length + 1 := by
  induction rest generalizing i with
  | nil => cases h
  | cons a rest ih =>
    rw [advanceThrough] at h
    split at h
    case isTrue ha =>
      obtain ⟨skipped, b, tail, rfl, hskip, hstop, rfl⟩ := ih h
      refine ⟨a :: skipped, b, tail, rfl, ?_, hstop, ?_⟩
      · intro c hc
        rcases List.mem_cons.1 hc with rfl | hc
        · exact ha
        · exact hskip c hc
      · rw [List.length_cons]
        omega
    case isFalse ha =>
      cases h
      exact ⟨[], a, rest, rfl, by simp, Bool.eq_false_iff.2 ha, rfl⟩

/-- Where the loop stops, an element fails the test, and none before it does. -/
theorem exists_of_advance {data : List α} {i j : ℕ} (h : advance p data i = some j) :
    ∃ skipped a rest, data.drop (i + 1) = skipped ++ a :: rest ∧ (∀ b ∈ skipped, p b) ∧
      p a = false ∧ j = i + skipped.length + 1 :=
  exists_of_advanceThrough h

end SystemDev.Library
