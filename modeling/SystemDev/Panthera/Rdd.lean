import Mathlib.Algebra.GroupWithZero.Nat
import Mathlib.Order.Lattice
import SystemDev.Library.Pull

/-!
# Resilient datasets of the map-reduce test case

An `RDD` is an array that is filled from the front: `length` entries hold data, the rest
is `null`. It doubles its array when it is full. `RDDIterForward` reads the entries in
order.

Array lengths are 32-bit signed integers. Doubling an array past their range throws.

The stages that fill these datasets add no `null`, so the entries below `length` are data.

## Main results

* `RDD.add_of_lt` — adding to an array with room
* `RDD.yields_begin` — what `begin()` reads
-/

namespace SystemDev.Panthera

open SystemDev.Library

/-- `class Datum`. -/
structure Datum where
  value : Int32
  deriving DecidableEq

/-- The largest `int`. -/
def intMaxValue : ℕ := 2 ^ 31 - 1

/-- `MINIMUM_LENGTH`. -/
def minimumLength : ℕ := 256

/-- `class RDD`; `none` is `null`. -/
structure RDD where
  length : ℕ
  values : List (Option Datum)
  filled : ∀ i, i < length → ∃ d, values[i]? = some (some d)
  reserved : minimumLength ≤ values.length
  values_le : values.length ≤ intMaxValue

namespace RDD

theorem length_le (rdd : RDD) : rdd.length ≤ rdd.values.length := by
  by_contra h
  obtain ⟨d, hd⟩ := rdd.filled rdd.values.length (by omega)
  simp at hd

/-- The constructor, with the number of entries to reserve. -/
def new (reserve : ℕ) (h : reserve ≤ intMaxValue) : RDD where
  length := 0
  values := List.replicate (max reserve minimumLength) none
  filled := fun i hi => absurd hi (Nat.not_lt_zero i)
  reserved := by
    rw [List.length_replicate]
    exact le_max_right _ _
  values_le := by
    rw [List.length_replicate]
    exact max_le h (by decide)

/-- Store behind the last entry, which must be inside the array. -/
def store (rdd : RDD) (datum : Datum) (h : rdd.length < rdd.values.length) : RDD where
  length := rdd.length + 1
  values := rdd.values.set rdd.length (some datum)
  filled := by
    intro i hi
    by_cases hlast : i = rdd.length
    · subst hlast
      exact ⟨datum, List.getElem?_set_self h⟩
    · rw [List.getElem?_set_ne (Ne.symm hlast)]
      exact rdd.filled i (by omega)
  reserved := by simpa using rdd.reserved
  values_le := by simpa using rdd.values_le

/-- The copy into an array of twice the length. -/
def grow (rdd : RDD) (h : rdd.values.length * 2 ≤ intMaxValue) : RDD where
  length := rdd.length
  values := rdd.values.take rdd.length ++
    List.replicate (rdd.values.length * 2 - rdd.length) none
  filled := by
    intro i hi
    have hle := rdd.length_le
    rw [List.getElem?_append_left (by simp; omega), List.getElem?_take_of_lt hi]
    exact rdd.filled i hi
  reserved := by
    have hle := rdd.length_le
    have hres := rdd.reserved
    simp
    omega
  values_le := by
    have hle := rdd.length_le
    simp
    omega

/-- `RDD.add`. -/
def add (rdd : RDD) (datum : Datum) : Option RDD :=
  if h : rdd.length < rdd.values.length then some (rdd.store datum h)
  else if hgrow : rdd.values.length * 2 ≤ intMaxValue then
    some ((rdd.grow hgrow).store datum (by
      have hle := rdd.length_le
      have hres := rdd.reserved
      have hmin : minimumLength = 256 := rfl
      simp [grow]
      omega))
  else none

/-- The entries in order. -/
def elements (rdd : RDD) : List Datum := (rdd.values.take rdd.length).filterMap id

/-- No entry below `length` is `null`. -/
theorem take_values (rdd : RDD) : rdd.values.take rdd.length = rdd.elements.map some := by
  have hall : ∀ e ∈ rdd.values.take rdd.length, e.isSome := by
    intro e he
    obtain ⟨i, hi, hget⟩ := List.mem_take_iff_getElem.mp he
    obtain ⟨d, hd⟩ := rdd.filled i (by omega)
    rw [List.getElem?_eq_getElem (by omega), Option.some_inj] at hd
    rw [← hget, hd]
    rfl
  rw [elements]
  generalize rdd.values.take rdd.length = l at hall ⊢
  induction l with
  | nil => rfl
  | cons e l ih =>
    obtain ⟨d, rfl⟩ := Option.isSome_iff_exists.mp (hall e List.mem_cons_self)
    have hrest := ih fun e' he' => hall e' (List.mem_cons_of_mem _ he')
    change some d :: l = some d :: (l.filterMap id).map some
    rw [← hrest]

theorem length_elements (rdd : RDD) : rdd.elements.length = rdd.length := by
  rw [← List.length_map some, ← rdd.take_values]
  exact List.length_take_of_le rdd.length_le

theorem elements_new {reserve : ℕ} (h : reserve ≤ intMaxValue) : (new reserve h).elements = [] :=
  rfl

theorem elements_store {rdd : RDD} {datum : Datum} (h : rdd.length < rdd.values.length) :
    (rdd.store datum h).elements = rdd.elements ++ [datum] := by
  have htake : (rdd.values.set rdd.length (some datum)).take (rdd.length + 1) =
      rdd.values.take rdd.length ++ [some datum] := by
    rw [List.take_add_one, List.getElem?_set_self h, List.take_set_of_le le_rfl]
    rfl
  change List.filterMap id ((rdd.values.set _ _).take (rdd.length + 1)) = _
  rw [htake, List.filterMap_append]
  rfl

/-- An array with room is not replaced. -/
theorem add_of_lt {rdd : RDD} (datum : Datum) (h : rdd.length < rdd.values.length) :
    ∃ rdd', rdd.add datum = some rdd' ∧ rdd'.elements = rdd.elements ++ [datum] ∧
      rdd'.length = rdd.length + 1 ∧ rdd'.values.length = rdd.values.length :=
  ⟨rdd.store datum h, dif_pos h, elements_store h, rfl, List.length_set⟩

/-- Adding a list to an array that has room for it. -/
theorem foldlM_add (data : List Datum) {rdd : RDD}
    (h : rdd.length + data.length ≤ rdd.values.length) :
    ∃ rdd', data.foldlM add rdd = some rdd' ∧ rdd'.elements = rdd.elements ++ data := by
  induction data generalizing rdd with
  | nil => exact ⟨rdd, rfl, (List.append_nil _).symm⟩
  | cons d data ih =>
    rw [List.length_cons] at h
    obtain ⟨mid, hadd, helements, hlength, hvalues⟩ := rdd.add_of_lt d (by omega)
    have hroom : mid.length + data.length ≤ mid.values.length := by omega
    obtain ⟨rdd', hfold, hend⟩ := ih hroom
    refine ⟨rdd', ?_, ?_⟩
    · rw [List.foldlM_cons, hadd]
      exact hfold
    · rw [hend, helements, List.append_assoc, List.singleton_append]

end RDD

/-- `class RDDIterForward`. -/
structure RDDIterForward where
  values : List (Option Datum)
  position : ℕ
  length : ℕ

/-- `RDD.begin`. -/
def RDD.begin (rdd : RDD) : RDDIterForward := ⟨rdd.values, 0, rdd.length⟩

instance : Pull RDDIterForward Datum where
  hasNext it := it.position < it.length
  next it :=
    if it.position < it.length then
      it.values[it.position]?.map fun d => (d, { it with position := it.position + 1 })
    else none
  left it := it.length - it.position

/-- From a position on the iterator reads the rest of the entries. -/
theorem RDD.yields_forward (rdd : RDD) {data : List Datum} {position : ℕ}
    (hdata : rdd.elements.drop position = data) :
    Yields (⟨rdd.values, position, rdd.length⟩ : RDDIterForward) data := by
  have hlength := rdd.length_elements
  induction data generalizing position with
  | nil =>
    have hend : rdd.length ≤ position := by
      rw [← hlength]
      exact List.drop_eq_nil_iff.mp hdata
    exact decide_eq_false (not_lt.mpr hend)
  | cons d data ih =>
    have hcount := congrArg List.length hdata
    rw [List.length_drop, List.length_cons, hlength] at hcount
    have hmore : position < rdd.length := by omega
    have hentry : rdd.values[position]? = some (some d) := by
      have hhead := congrArg List.head? hdata
      rw [List.head?_drop, List.head?_cons] at hhead
      rw [← List.getElem?_take_of_lt hmore, rdd.take_values, List.getElem?_map, hhead]
      rfl
    have hrest : rdd.elements.drop (position + 1) = data := by
      rw [← List.drop_drop, hdata]
      rfl
    refine ⟨decide_eq_true hmore, ?_, _, ?_, ih hrest⟩
    · change data.length < rdd.length - position
      omega
    · change (if position < rdd.length then _ else none) = _
      rw [if_pos hmore, hentry]
      rfl

/-- What `begin()` reads. -/
theorem RDD.yields_begin (rdd : RDD) : Yields rdd.begin rdd.elements :=
  rdd.yields_forward List.drop_zero

end SystemDev.Panthera
