import SystemDev.Library.Simulation
import SystemDev.Panthera.Rdd

/-!
# Iterators over a growing dataset

An iterator keeps a reference to the array the `RDD` had when it was created. The `RDD` goes on
appending to that array in place until it is full, and then moves to a doubled copy. Here arrays
are objects on a heap that dataset and iterators refer to, so that both can be seen: an append
to a shared array, and an iterator left behind on an old one.

What the iterators are for is a machine in which each of them is the list of what it has yet to
return (`Snapshots`). The dataset with its heap gives the same answers to every sequence of
calls.

A call that throws anything but `NoSuchElementException` is `none`.

The stages of a pipeline add no `null`, and nothing is added to the dataset a stage reads. For them
a dataset that owns its array is enough (`RDD`). It is the one on the heap.

## Main results

* `Represents.add` — appending keeps every snapshot, with or without growth
* `step_simulates` — one call
* `iterators_are_snapshots` — every sequence of calls
* `store_mirrors_rdd` — the dataset on the heap and the one of the pipelines
-/

namespace SystemDev.Panthera

open SystemDev.Library

/-- The calls on a dataset and its iterators, which are numbered in the order of creation. A
datum may be `null`. -/
inductive Call
  | add (datum : Option Datum)
  | begin
  | rbegin
  | next (i : ℕ)
  | hasNext (i : ℕ)
  | getElem (inx : ℕ)
  | size
  deriving DecidableEq

/-- What a call returns. -/
inductive Answer
  | done
  | iterator (i : ℕ)
  | datum (d : Option Datum)
  | bool (b : Bool)
  | int (n : ℕ)
  | noSuchElement
  deriving DecidableEq

/-! ### The code -/

/-- `RDDIterForward` and `RDDIterBackward`; `values` refers to an array on the heap. -/
inductive Iter
  | forward (values position length : ℕ)
  | backward (values position : ℕ)
  deriving DecidableEq

/-- An `RDD`, the arrays allocated for it and the iterators created from it. -/
structure Store where
  heap : List (List (Option Datum))
  length : ℕ
  values : ℕ
  iters : List Iter

/-- `new RDD(reserve)`. -/
def Store.new (reserve : Int32) : Store where
  heap := [List.replicate (max reserve.toInt minimumLength).toNat none]
  length := 0
  values := 0
  iters := []

/-- The first half of `RDD.add`: a full array is replaced by a copy of twice its length. -/
def Store.grow (s : Store) : Option Store :=
  s.heap[s.values]?.bind fun values =>
    if values.length ≤ s.length then
      -- past the range of `int` the length is negative
      if values.length * 2 ≤ intMaxValue then
        some { s with
          heap := s.heap ++
            [values.take s.length ++ List.replicate (values.length * 2 - s.length) none]
          values := s.heap.length }
      else none
    else some s

/-- `values[length++] = datum`. -/
def Store.put (s : Store) (datum : Option Datum) : Option Store :=
  s.heap[s.values]?.bind fun values =>
    if s.length < values.length then
      some { s with
        heap := s.heap.set s.values (values.set s.length datum)
        length := s.length + 1 }
    else none

/-- `RDD.add`. -/
def Store.add (s : Store) (datum : Option Datum) : Option Store :=
  s.grow.bind fun s' => s'.put datum

/-- `hasNext`. -/
def Iter.hasNext : Iter → Bool
  | .forward _ position length => position < length
  | .backward _ position => 0 < position

/-- `next`. -/
def Iter.next (heap : List (List (Option Datum))) : Iter → Option (Iter × Answer)
  | .forward values position length =>
    if position < length then
      heap[values]?.bind fun arr => arr[position]?.map fun d =>
        (.forward values (position + 1) length, .datum d)
    else some (.forward values position length, .noSuchElement)
  | .backward values position =>
    if 0 < position then
      heap[values]?.bind fun arr => arr[position - 1]?.map fun d =>
        (.backward values (position - 1), .datum d)
    else some (.backward values position, .noSuchElement)

/-- One call. -/
def Store.step (s : Store) : Call → Option (Store × Answer)
  | .add datum => (s.add datum).map fun s' => (s', .done)
  | .begin =>
    some ({ s with iters := s.iters ++ [.forward s.values 0 s.length] }, .iterator s.iters.length)
  | .rbegin =>
    some ({ s with iters := s.iters ++ [.backward s.values s.length] }, .iterator s.iters.length)
  | .next i => s.iters[i]?.bind fun it => (it.next s.heap).map fun r =>
      ({ s with iters := s.iters.set i r.1 }, r.2)
  | .hasNext i => s.iters[i]?.map fun it => (s, .bool it.hasNext)
  | .getElem inx => s.heap[s.values]?.bind fun values => values[inx]?.map fun d => (s, .datum d)
  | .size => some (s, .int s.length)

/-! ### What it is for -/

/-- The elements added so far, and for each iterator what it has yet to return. -/
structure Snapshots where
  elements : List (Option Datum)
  left : List (List (Option Datum))

/-- One call. An element is asked for by an index below the size. -/
def Snapshots.step (t : Snapshots) : Call → Option (Snapshots × Answer)
  | .add datum => some ({ t with elements := t.elements ++ [datum] }, .done)
  | .begin => some ({ t with left := t.left ++ [t.elements] }, .iterator t.left.length)
  | .rbegin => some ({ t with left := t.left ++ [t.elements.reverse] }, .iterator t.left.length)
  | .next i => t.left[i]?.map fun
    | [] => (t, .noSuchElement)
    | d :: rest => ({ t with left := t.left.set i rest }, .datum d)
  | .hasNext i => t.left[i]?.map fun l => (t, .bool (l ≠ []))
  | .getElem inx => t.elements[inx]?.map fun d => (t, .datum d)
  | .size => some (t, .int t.elements.length)

/-! ### Iterators and the arrays they read -/

/-- The array an iterator reads. -/
def Iter.ref : Iter → ℕ
  | .forward values _ _ => values
  | .backward values _ => values

/-- The number of entries at the front of its array an iterator may read. -/
def Iter.bound : Iter → ℕ
  | .forward _ _ length => length
  | .backward _ position => position

/-- What an iterator has yet to return. -/
def Iter.rest (arr : List (Option Datum)) : Iter → List (Option Datum)
  | .forward _ position length => (arr.take length).drop position
  | .backward _ position => (arr.take position).reverse

theorem Iter.rest_congr {arr arr' : List (Option Datum)} {it : Iter}
    (h : arr'.take it.bound = arr.take it.bound) : it.rest arr' = it.rest arr := by
  cases it with
  | forward values position length => exact congrArg (List.drop position) h
  | backward values position => exact congrArg List.reverse h

variable {s s' : Store} {t : Snapshots} {it : Iter} {l : List (Option Datum)}

/-- The iterator returns the elements of `l` next. If it reads the array the dataset appends to,
it stays below the place of the next append. -/
structure Holds (s : Store) (it : Iter) (l : List (Option Datum)) : Prop where
  array : ∃ arr, s.heap[it.ref]? = some arr ∧ it.bound ≤ arr.length ∧ it.rest arr = l
  behind : it.ref = s.values → it.bound ≤ s.length

/-- An iterator does not notice a change behind the entries it reads. -/
theorem Holds.frame (h : Holds s it l)
    (hheap : ∀ arr, s.heap[it.ref]? = some arr → it.bound ≤ arr.length →
      ∃ arr', s'.heap[it.ref]? = some arr' ∧ it.bound ≤ arr'.length ∧
        arr'.take it.bound = arr.take it.bound)
    (hbehind : it.ref = s'.values → it.bound ≤ s'.length) : Holds s' it l := by
  obtain ⟨arr, harr, hbound, hrest⟩ := h.array
  obtain ⟨arr', harr', hbound', htake⟩ := hheap arr harr hbound
  exact ⟨⟨arr', harr', hbound', (Iter.rest_congr htake).trans hrest⟩, hbehind⟩

/-- The same array read by the iterator in another position. -/
theorem Holds.move {it' : Iter} {l' : List (Option Datum)} (h : Holds s it l)
    (href : it'.ref = it.ref) (hbound : it'.bound ≤ it.bound)
    (hrest : ∀ arr, it.bound ≤ arr.length → it.rest arr = l → it'.rest arr = l') :
    Holds s it' l' := by
  obtain ⟨arr, harr, hlen, hl⟩ := h.array
  refine ⟨⟨arr, href ▸ harr, hbound.trans hlen, hrest arr hlen hl⟩, fun hvalues => ?_⟩
  exact hbound.trans (h.behind (href.symm.trans hvalues))

/-- `hasNext` is false exactly when nothing is left. -/
theorem Holds.hasNext_eq (h : Holds s it l) : it.hasNext = decide (l ≠ []) := by
  obtain ⟨arr, -, hbound, rfl⟩ := h.array
  cases it with
  | forward values position length =>
    change length ≤ arr.length at hbound
    refine decide_eq_decide.mpr ?_
    rw [← List.length_pos_iff, Iter.rest, List.length_drop, List.length_take_of_le hbound]
    exact Nat.sub_pos_iff_lt.symm
  | backward values position =>
    change position ≤ arr.length at hbound
    refine decide_eq_decide.mpr ?_
    rw [← List.length_pos_iff, Iter.rest, List.length_reverse, List.length_take_of_le hbound]

theorem Holds.next_nil (h : Holds s it []) : it.next s.heap = some (it, .noSuchElement) := by
  have hmore := h.hasNext_eq
  cases it with
  | forward values position length => exact if_neg (by simpa [Iter.hasNext] using hmore)
  | backward values position => exact if_neg (by simpa [Iter.hasNext] using hmore)

theorem reverse_take_succ {arr : List (Option Datum)} {n : ℕ} (hn : n < arr.length) :
    (arr.take (n + 1)).reverse = arr[n] :: (arr.take n).reverse := by
  rw [List.take_add_one, List.getElem?_eq_getElem hn, List.reverse_append]
  rfl

/-- `next` returns the first element that is left. -/
theorem Holds.next_cons {d : Option Datum} (h : Holds s it (d :: l)) :
    ∃ it', it.next s.heap = some (it', .datum d) ∧ Holds s it' l := by
  have hmore := h.hasNext_eq
  obtain ⟨arr, harr, hbound, hrest⟩ := h.array
  cases it with
  | forward values position length =>
    have hlt : position < length := by simpa [Iter.hasNext] using hmore
    have hentry : arr[position]? = some d := by
      have hhead := congrArg List.head? hrest
      rwa [Iter.rest, List.head?_drop, List.getElem?_take_of_lt hlt] at hhead
    refine ⟨.forward values (position + 1) length, ?_, h.move rfl le_rfl fun arr' _ hl => ?_⟩
    · rw [Iter.next, if_pos hlt]
      simp only [Iter.ref] at harr
      rw [harr, Option.bind_some, hentry]
      rfl
    · rw [Iter.rest] at hl ⊢
      rw [← List.drop_drop, hl]
      rfl
  | backward values position =>
    have hlt : 0 < position := by simpa [Iter.hasNext] using hmore
    obtain ⟨n, rfl⟩ : ∃ n, position = n + 1 := ⟨position - 1, by omega⟩
    have hn : n < arr.length := hbound
    rw [Iter.rest, reverse_take_succ hn] at hrest
    have hentry : arr[n]? = some d := by
      rw [List.getElem?_eq_getElem hn, (List.cons_eq_cons.mp hrest).1]
    refine ⟨.backward values n, ?_, h.move rfl (Nat.le_succ n) fun arr' hlen hl => ?_⟩
    · simp only [Iter.ref] at harr
      rw [Iter.next, if_pos hlt, harr, Option.bind_some, Nat.add_sub_cancel, hentry]
      rfl
    · rw [Iter.rest, reverse_take_succ hlen] at hl
      exact (List.cons_eq_cons.mp hl).2

/-! ### The simulation -/

/-- The dataset holds the elements at the front of its array, and every iterator its list. -/
structure Represents (s : Store) (t : Snapshots) : Prop where
  array : ∃ arr, s.heap[s.values]? = some arr ∧ s.length ≤ arr.length ∧
    arr.take s.length = t.elements ∧ 0 < arr.length
  count : s.iters.length = t.left.length
  iters : ∀ (i : ℕ) it l, s.iters[i]? = some it → t.left[i]? = some l → Holds s it l

theorem Represents.length_eq (h : Represents s t) : s.length = t.elements.length := by
  obtain ⟨arr, -, hle, htake, -⟩ := h.array
  rw [← htake, List.length_take_of_le hle]

/-- The iterator of a list. -/
theorem Represents.exists_iter (h : Represents s t) {i : ℕ} (hl : t.left[i]? = some l) :
    ∃ it, s.iters[i]? = some it ∧ Holds s it l := by
  have hlt : i < s.iters.length := h.count ▸ (List.getElem?_eq_some_iff.mp hl).1
  have hit := List.getElem?_eq_getElem hlt
  exact ⟨_, hit, h.iters i _ l hit hl⟩

/-- An element is at its index in the array. -/
theorem Represents.exists_entry (h : Represents s t) {inx : ℕ} {d : Option Datum}
    (hd : t.elements[inx]? = some d) :
    ∃ arr, s.heap[s.values]? = some arr ∧ arr[inx]? = some d := by
  obtain ⟨arr, harr, -, htake, -⟩ := h.array
  have hlt : inx < s.length := h.length_eq ▸ (List.getElem?_eq_some_iff.mp hd).1
  refine ⟨arr, harr, ?_⟩
  rwa [← htake, List.getElem?_take_of_lt hlt] at hd

theorem represents_new (reserve : Int32) : Represents (Store.new reserve) ⟨[], []⟩ where
  array := by
    refine ⟨_, rfl, Nat.zero_le _, rfl, ?_⟩
    have hmin : (minimumLength : ℤ) ≤ max reserve.toInt minimumLength := le_max_right ..
    have hpos : (minimumLength : ℤ) = 256 := rfl
    rw [List.length_replicate]
    omega
  count := rfl
  iters := by
    intro i it l hit
    cases hit

/-- Every iterator keeps its list through a change of the heap that it does not notice. -/
theorem Represents.iters_of_frame (h : Represents s t) (hiters : s'.iters = s.iters)
    (hheap : ∀ it l, Holds s it l → Holds s' it l) :
    ∀ (i : ℕ) it l, s'.iters[i]? = some it → t.left[i]? = some l → Holds s' it l := by
  intro i it l hit hl
  exact hheap it l (h.iters i it l (hiters ▸ hit) hl)

/-- The copy begins with what was copied. -/
theorem take_copy {arr : List (Option Datum)} {n m : ℕ} (hn : n ≤ arr.length) :
    (arr.take n ++ List.replicate m none).take n = arr.take n := by
  rw [List.take_append_of_le_length (by rw [List.length_take_of_le hn]), List.take_take,
    Nat.min_self]

/-- Growth moves the elements to another array; the iterators stay on theirs. -/
theorem Represents.grow (h : Represents s t) (hroom : s.length < 2 ^ 30) :
    ∃ s' arr, s.grow = some s' ∧ Represents s' t ∧ s'.heap[s'.values]? = some arr ∧
      s'.length < arr.length ∧ s'.iters = s.iters := by
  obtain ⟨arr, harr, hle, htake, hpos⟩ := h.array
  rw [Store.grow, harr, Option.bind_some]
  by_cases hfull : arr.length ≤ s.length
  · have hint : arr.length * 2 ≤ intMaxValue := by
      rw [intMaxValue]
      omega
    rw [if_pos hfull, if_pos hint]
    set temp := arr.take s.length ++ List.replicate (arr.length * 2 - s.length) none with htemp
    have hfront : temp.take s.length = arr.take s.length := take_copy hle
    have hlen : temp.length = arr.length * 2 := by
      rw [htemp, List.length_append, List.length_take_of_le hle, List.length_replicate]
      omega
    have hnew : (s.heap ++ [temp])[s.heap.length]? = some temp := List.getElem?_concat_length
    refine ⟨_, temp, rfl, ⟨⟨temp, hnew, ?_, hfront.trans htake, ?_⟩, h.count, ?_⟩, hnew, ?_, rfl⟩
    · change s.length ≤ temp.length
      omega
    · omega
    · refine h.iters_of_frame rfl fun it l hold => hold.frame (fun arr' harr' hbound => ?_) ?_
      · have hlt := (List.getElem?_eq_some_iff.mp harr').1
        exact ⟨arr', (List.getElem?_append_left hlt).trans harr', hbound, rfl⟩
      · -- no iterator reads the new array
        intro hself
        obtain ⟨arr', harr', -⟩ := hold.array
        have hlt := (List.getElem?_eq_some_iff.mp harr').1
        exact absurd hself hlt.ne
    · change s.length < temp.length
      omega
  · rw [if_neg hfull]
    exact ⟨s, arr, rfl, h, harr, by omega, rfl⟩

/-- An append in place is behind everything an iterator reads. -/
theorem Represents.put (h : Represents s t) {arr : List (Option Datum)}
    (harr : s.heap[s.values]? = some arr) (hroom : s.length < arr.length) (d : Option Datum) :
    ∃ s', s.put d = some s' ∧ Represents s' { t with elements := t.elements ++ [d] } := by
  have hfront : arr.take s.length = t.elements := by
    obtain ⟨arr', harr', -, htake, -⟩ := h.array
    obtain rfl := Option.some_inj.mp (harr'.symm.trans harr)
    exact htake
  have hvalues : s.values < s.heap.length := (List.getElem?_eq_some_iff.mp harr).1
  have hself : (s.heap.set s.values (arr.set s.length d))[s.values]? = some (arr.set s.length d) :=
    List.getElem?_set_self hvalues
  rw [Store.put, harr, Option.bind_some, if_pos hroom]
  refine ⟨_, rfl, ⟨⟨arr.set s.length d, hself, ?_, ?_, ?_⟩, h.count, ?_⟩⟩
  · rw [List.length_set]
    exact hroom
  · change (arr.set s.length d).take (s.length + 1) = _
    rw [List.take_add_one, List.getElem?_set_self hroom, List.take_set_of_le le_rfl, hfront]
    rfl
  · rw [List.length_set]
    omega
  · refine h.iters_of_frame rfl fun it l hold => hold.frame (fun arr' harr' hbound => ?_) ?_
    · by_cases href : it.ref = s.values
      · -- the array is shared, the place written to is not
        rw [href, harr] at harr'
        obtain rfl := Option.some_inj.mp harr'
        refine ⟨arr.set s.length d, href ▸ hself, ?_, ?_⟩
        · rwa [List.length_set]
        · exact List.take_set_of_le (hold.behind href)
      · exact ⟨arr', (List.getElem?_set_ne (Ne.symm href)).trans harr', hbound, rfl⟩
    · exact fun href => (hold.behind href).trans (Nat.le_succ _)

theorem Represents.add (h : Represents s t) (hroom : s.length < 2 ^ 30) (d : Option Datum) :
    ∃ s', s.add d = some s' ∧ Represents s' { t with elements := t.elements ++ [d] } := by
  obtain ⟨mid, arr, hgrow, hmid, harr, hlt, -⟩ := h.grow hroom
  obtain ⟨s', hput, hs'⟩ := hmid.put harr hlt d
  refine ⟨s', ?_, hs'⟩
  rw [Store.add, hgrow]
  exact hput

/-- A new iterator with what it is to return. -/
theorem Represents.newIter (h : Represents s t) (hold : Holds s it l) :
    Represents { s with iters := s.iters ++ [it] } { t with left := t.left ++ [l] } where
  array := h.array
  count := by simp [h.count]
  iters := by
    intro i it' l' hit hl
    have hkeep : Holds s it' l' := by
      rcases lt_trichotomy i s.iters.length with hi | rfl | hi
      · rw [List.getElem?_append_left hi] at hit
        rw [List.getElem?_append_left (h.count ▸ hi)] at hl
        exact h.iters i it' l' hit hl
      · rw [h.count, List.getElem?_concat_length] at hl
        rw [List.getElem?_concat_length] at hit
        obtain rfl := Option.some_inj.mp hit
        obtain rfl := Option.some_inj.mp hl
        exact hold
      · rw [List.getElem?_eq_none (by simpa using Nat.succ_le_of_lt hi)] at hit
        cases hit
    exact ⟨hkeep.array, hkeep.behind⟩

/-- An iterator that has moved. -/
theorem Represents.setIter (h : Represents s t) {i : ℕ} (hold : Holds s it l) :
    Represents { s with iters := s.iters.set i it } { t with left := t.left.set i l } where
  array := h.array
  count := by simp [h.count]
  iters := by
    intro j it' l' hit hl
    have hkeep : Holds s it' l' := by
      by_cases hij : i = j
      · subst hij
        have hlt : i < s.iters.length := by simpa using (List.getElem?_eq_some_iff.mp hit).1
        rw [List.getElem?_set_self hlt] at hit
        rw [List.getElem?_set_self (h.count ▸ hlt)] at hl
        obtain rfl := Option.some_inj.mp hit
        obtain rfl := Option.some_inj.mp hl
        exact hold
      · rw [List.getElem?_set_ne hij] at hit hl
        exact h.iters j it' l' hit hl
    exact ⟨hkeep.array, hkeep.behind⟩

/-- A call of `next`, on an iterator that is exhausted or not. -/
theorem Represents.next (h : Represents s t) {i : ℕ} {t' : Snapshots} {answer : Answer}
    (hstep : t.step (.next i) = some (t', answer)) :
    ∃ s', s.step (.next i) = some (s', answer) ∧ Represents s' t' := by
  obtain ⟨l, hl, heq⟩ := Option.map_eq_some_iff.mp hstep
  obtain ⟨it, hit, hold⟩ := h.exists_iter hl
  cases l with
  | nil =>
    cases heq
    obtain ⟨hlt, hget⟩ := List.getElem?_eq_some_iff.mp hit
    have hsame : s.iters.set i it = s.iters := hget ▸ List.set_getElem_self hlt
    refine ⟨s, ?_, h⟩
    rw [Store.step, hit, Option.bind_some, hold.next_nil, Option.map_some, hsame]
  | cons d rest =>
    cases heq
    obtain ⟨it', hnext, hold'⟩ := hold.next_cons
    refine ⟨_, ?_, h.setIter hold'⟩
    rw [Store.step, hit, Option.bind_some, hnext]
    rfl

/-- The number of `add` calls. -/
def adds (calls : List Call) : ℕ := calls.countP fun
  | .add _ => true
  | _ => false

/-- One call: the dataset gives the answer of the snapshots. -/
theorem step_simulates (h : Represents s t) {call : Call} {t' : Snapshots} {answer : Answer}
    (hroom : ∀ d, call = .add d → s.length < 2 ^ 30) (hstep : t.step call = some (t', answer)) :
    ∃ s', s.step call = some (s', answer) ∧ Represents s' t' := by
  obtain ⟨arr, harr, hle, htake, -⟩ := h.array
  cases call with
  | add d =>
    cases hstep
    obtain ⟨s', hadd, hs'⟩ := h.add (hroom d rfl) d
    exact ⟨s', by rw [Store.step, hadd]; rfl, hs'⟩
  | begin =>
    cases hstep
    have hold : Holds s (.forward s.values 0 s.length) t.elements :=
      ⟨⟨arr, harr, hle, by rw [Iter.rest, List.drop_zero, htake]⟩, fun _ => le_rfl⟩
    exact ⟨_, by rw [Store.step, h.count], h.newIter hold⟩
  | rbegin =>
    cases hstep
    have hold : Holds s (.backward s.values s.length) t.elements.reverse :=
      ⟨⟨arr, harr, hle, by rw [Iter.rest, htake]⟩, fun _ => le_rfl⟩
    exact ⟨_, by rw [Store.step, h.count], h.newIter hold⟩
  | next i => exact h.next hstep
  | hasNext i =>
    obtain ⟨l, hl, heq⟩ := Option.map_eq_some_iff.mp hstep
    obtain ⟨it, hit, hold⟩ := h.exists_iter hl
    cases heq
    refine ⟨s, ?_, h⟩
    rw [Store.step, hit, Option.map_some, hold.hasNext_eq]
  | getElem inx =>
    obtain ⟨d, hd, heq⟩ := Option.map_eq_some_iff.mp hstep
    cases heq
    obtain ⟨values, hvalues, hentry⟩ := h.exists_entry hd
    refine ⟨s, ?_, h⟩
    rw [Store.step, hvalues, Option.bind_some, hentry]
    rfl
  | size =>
    cases hstep
    exact ⟨s, by rw [Store.step, h.length_eq], h⟩

theorem adds_cons (call : Call) (calls : List Call) :
    adds (call :: calls) = adds calls + adds [call] := by
  simp [adds, List.countP_cons]

theorem Snapshots.length_step {call : Call} {t' : Snapshots} {answer : Answer}
    (h : t.step call = some (t', answer)) :
    t'.elements.length = t.elements.length + adds [call] := by
  cases call with
  | add d =>
    cases h
    rw [List.length_append]
    rfl
  | begin => cases h; rfl
  | rbegin => cases h; rfl
  | next i =>
    obtain ⟨l, -, heq⟩ := Option.map_eq_some_iff.mp h
    cases l <;> (cases heq; rfl)
  | hasNext i =>
    obtain ⟨l, -, heq⟩ := Option.map_eq_some_iff.mp h
    cases heq
    rfl
  | getElem inx =>
    obtain ⟨d, -, heq⟩ := Option.map_eq_some_iff.mp h
    cases heq
    rfl
  | size => cases h; rfl

/-- The relation of the simulation, with the additions still to come. -/
def Tracks (calls : List Call) (s : Store) (t : Snapshots) : Prop :=
  Represents s t ∧ s.length + adds calls < 2 ^ 30

theorem tracks_step (call : Call) (calls : List Call) (s : Store) (t t' : Snapshots)
    (answer : Answer) (h : Tracks (call :: calls) s t) (hstep : t.step call = some (t', answer)) :
    ∃ s', s.step call = some (s', answer) ∧ Tracks calls s' t' := by
  obtain ⟨hrep, hadds⟩ := h
  rw [adds_cons] at hadds
  obtain ⟨s', hs', hrep'⟩ := step_simulates hrep (fun _ _ => by omega) hstep
  have hlength := Snapshots.length_step hstep
  have hold := hrep.length_eq
  have hnew := hrep'.length_eq
  exact ⟨s', hs', hrep', by omega⟩

/-- The iterators of a dataset are snapshots: for any reserve and any sequence of calls with
fewer than `2 ^ 30` additions, the answers are those of the machine in which an iterator is the
list of what it has yet to return. -/
theorem iterators_are_snapshots (reserve : Int32) {calls : List Call} (hadds : adds calls < 2 ^ 30)
    {t : Snapshots} {answers : List Answer}
    (hrun : runAnswers Snapshots.step ⟨[], []⟩ calls = some (t, answers)) :
    ∃ s, runAnswers Store.step (Store.new reserve) calls = some (s, answers) ∧
      Represents s t := by
  have hinit : Tracks calls (Store.new reserve) ⟨[], []⟩ :=
    ⟨represents_new reserve, (Nat.zero_add _).trans_lt hadds⟩
  obtain ⟨s, hs, hrep, -⟩ := runAnswers_simulates tracks_step hinit hrun
  exact ⟨s, hs, hrep⟩

/-- Two additions, an iterator of either kind, and an addition they do not see. -/
def someCalls : List Call :=
  [.add (some ⟨1⟩), .add none, .begin, .rbegin, .add (some ⟨3⟩), .next 0, .next 1, .next 0,
    .hasNext 0, .next 0, .next 1, .getElem 2, .size]

theorem someCalls_snapshots :
    ∃ s, runAnswers Store.step (Store.new (-7)) someCalls =
      some (s, [.done, .done, .iterator 0, .iterator 1, .done, .datum (some ⟨1⟩), .datum none,
        .datum none, .bool false, .noSuchElement, .datum (some ⟨1⟩), .datum (some ⟨3⟩),
        .int 3]) := by
  have hadds : adds someCalls < 2 ^ 30 := by decide
  obtain ⟨s, hs, -⟩ := iterators_are_snapshots (-7) hadds rfl
  exact ⟨s, hs⟩

/-! ### The dataset of the pipelines -/

/-- The dataset on the heap has the array and the length of an `RDD`. -/
structure Mirrors (s : Store) (rdd : RDD) : Prop where
  array : s.heap[s.values]? = some rdd.values
  length : s.length = rdd.length

variable {rdd : RDD}

theorem toNat_le_intMaxValue (reserve : Int32) : reserve.toInt.toNat ≤ intMaxValue := by
  have hlt := reserve.toInt_lt
  rw [intMaxValue]
  omega

/-- A reserve that is negative or small is the minimum in both. -/
theorem mirrors_new (reserve : Int32) :
    Mirrors (Store.new reserve)
      (RDD.new reserve.toInt.toNat (toNat_le_intMaxValue reserve)) where
  array := by
    have hmax : (max reserve.toInt (minimumLength : ℤ)).toNat =
        max reserve.toInt.toNat minimumLength := by omega
    simp only [Store.new, RDD.new, hmax, List.getElem?_cons_zero]
  length := rfl

/-- Both arrays are replaced by the same copy. -/
theorem Mirrors.grow (h : Mirrors s rdd) (hfull : rdd.values.length ≤ rdd.length)
    (hint : rdd.values.length * 2 ≤ intMaxValue) :
    ∃ s', s.grow = some s' ∧ Mirrors s' (rdd.grow hint) := by
  rw [Store.grow, h.array, Option.bind_some, h.length, if_pos hfull, if_pos hint]
  exact ⟨_, rfl, List.getElem?_concat_length, rfl⟩

theorem Mirrors.put (h : Mirrors s rdd) (hroom : rdd.length < rdd.values.length) (d : Datum) :
    ∃ s', s.put (some d) = some s' ∧ Mirrors s' (rdd.store d hroom) := by
  have hvalues : s.values < s.heap.length := (List.getElem?_eq_some_iff.mp h.array).1
  rw [Store.put, h.array, Option.bind_some, h.length, if_pos hroom]
  exact ⟨_, rfl, List.getElem?_set_self hvalues, rfl⟩

/-- Both add the datum, or both throw because the array cannot be doubled. -/
theorem Mirrors.add (h : Mirrors s rdd) (d : Datum) :
    Option.Rel Mirrors (s.add (some d)) (rdd.add d) := by
  rw [Store.add, RDD.add]
  split_ifs with hroom hint
  · -- the array has room and is not replaced
    have hgrow : s.grow = some s := by
      rw [Store.grow, h.array, Option.bind_some, h.length, if_neg (Nat.not_le.mpr hroom)]
    obtain ⟨s', hput, hs'⟩ := h.put hroom d
    rw [hgrow, Option.bind_some, hput]
    exact .some hs'
  · obtain ⟨mid, hgrow, hmid⟩ := h.grow (Nat.not_lt.mp hroom) hint
    obtain ⟨s', hput, hs'⟩ := hmid.put _ d
    rw [hgrow, Option.bind_some, hput]
    exact .some hs'
  · -- twice its length is no `int`
    have hgrow : s.grow = none := by
      rw [Store.grow, h.array, Option.bind_some, h.length, if_pos (Nat.not_lt.mp hroom),
        if_neg hint]
    rw [hgrow]
    exact .none

theorem Mirrors.foldlM_add (h : Mirrors s rdd) (data : List Datum) :
    Option.Rel Mirrors (data.foldlM (fun s d => s.add (some d)) s) (data.foldlM RDD.add rdd) := by
  induction data generalizing s rdd with
  | nil => exact .some h
  | cons d data ih =>
    have hadd := h.add d
    rw [List.foldlM_cons, List.foldlM_cons]
    generalize s.add (some d) = stored, rdd.add d = owned at hadd ⊢
    cases hadd with
    | none => exact .none
    | some hnext => exact ih hnext

/-- The iterator that `begin()` puts on the heap returns what the one of the `RDD` reads. -/
theorem Mirrors.holds_begin (h : Mirrors s rdd) :
    Holds s (.forward s.values 0 s.length) (rdd.elements.map some) where
  array := by
    refine ⟨rdd.values, h.array, h.length.trans_le rdd.length_le, ?_⟩
    rw [Iter.rest, List.drop_zero, h.length, rdd.take_values]
  behind := fun _ => le_rfl

/-- The two models of the dataset agree on every sequence of additions without `null`, and their
iterators on what was added. -/
theorem store_mirrors_rdd (reserve : Int32) (data : List Datum) :
    Option.Rel
      (fun s rdd => Mirrors s rdd ∧ Yields rdd.begin rdd.elements ∧
        Holds s (.forward s.values 0 s.length) (rdd.elements.map some))
      (data.foldlM (fun s d => s.add (some d)) (Store.new reserve))
      (data.foldlM RDD.add
        (RDD.new reserve.toInt.toNat (toNat_le_intMaxValue reserve))) := by
  have hfold := (mirrors_new reserve).foldlM_add data
  generalize data.foldlM (fun s d => s.add (some d)) (Store.new reserve) = stored,
    data.foldlM RDD.add (RDD.new reserve.toInt.toNat _) = owned at hfold ⊢
  cases hfold with
  | none => exact .none
  | some hend => exact .some ⟨hend, RDD.yields_begin _, hend.holds_begin⟩

end SystemDev.Panthera
