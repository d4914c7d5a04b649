import SystemDev.Library.Scan

/-!
# Probing around a table

`while (!free(i)) i = (i + 1) % n;` looks for a free entry from a given start and wraps around
at the end of the table. Nothing bounds the loop, so `probe` takes its turns from a fuel, and
the loop ends if some fuel is enough. With a free entry anywhere in the table `n` turns are
enough, and without one no fuel is.

Others may take and release entries between the tests. `probeAlong` reads the table as it is at
each test and ends exactly if one of its tests meets a free entry.

Entries are taken one after the other from starts of any kind. All of these probes end exactly
if there are as many free entries as probes.
-/

namespace SystemDev.Library

variable {n : ℕ}

theorem cycle_lt (i : Fin n) : ((i : ℕ) + 1) % n < n := Nat.mod_lt _ i.pos

/-- The index behind `i`, from the last back to the first. -/
def cycleNext (i : Fin n) : Fin n := ⟨(i + 1) % n, cycle_lt i⟩

/-- The loop from `i` with at most `fuel` tests. -/
def probe (free : Fin n → Bool) : ℕ → Fin n → Option (Fin n)
  | 0, _ => none
  | fuel + 1, i => if free i then some i else probe free fuel (cycleNext i)

section Probe

variable {free : Fin n → Bool} {fuel : ℕ} {i j : Fin n}

/-- The loop ends at a free entry. -/
theorem free_of_probe (h : probe free fuel i = some j) : free j = true := by
  induction fuel generalizing i with
  | zero => cases h
  | succ fuel ih =>
    rw [probe] at h
    split_ifs at h with hfree
    · obtain rfl := Option.some_inj.mp h
      exact hfree
    · exact ih h

/-- A free entry that lies `d` behind the start ends the loop within `d + 1` tests. -/
theorem exists_probe_of_distance {d : ℕ} (hd : (i + d) % n = j) (hj : free j = true)
    (hfuel : d < fuel) : ∃ k, probe free fuel i = some k := by
  induction d generalizing i fuel with
  | zero =>
    have hij : i = j := Fin.ext (by rwa [Nat.add_zero, Nat.mod_eq_of_lt i.isLt] at hd)
    obtain ⟨m, rfl⟩ := Nat.exists_eq_add_of_lt hfuel
    refine ⟨i, ?_⟩
    rw [Nat.zero_add, probe, if_pos (hij ▸ hj)]
  | succ d ih =>
    obtain ⟨m, rfl⟩ := Nat.exists_eq_add_of_lt hfuel
    rw [probe]
    split_ifs with hfree
    · exact ⟨i, rfl⟩
    · refine ih ?_ (by omega)
      change ((i + 1) % n + d) % n = j
      rw [Nat.mod_add_mod, ← hd]
      congr 1
      omega

/-- As many tests as the table has entries find a free one. -/
theorem exists_probe (hj : free j = true) (i : Fin n) : ∃ k, probe free n i = some k := by
  have hn := i.pos
  refine exists_probe_of_distance (d := (j + n - i) % n) ?_ hj (Nat.mod_lt _ hn)
  have hi := i.isLt
  have hjn := j.isLt
  rw [Nat.add_mod_mod, show (i : ℕ) + (j + n - i) = j + n by omega, Nat.add_mod_right,
    Nat.mod_eq_of_lt hjn]

end Probe

/-! ### A table that others change -/

/-- The loop from `i` at time `t`, with the table `free t` at time `t` and one test for each time.
The result is the time and the entry of the test that ends it. -/
def probeAlong (free : ℕ → Fin n → Bool) : ℕ → ℕ → Fin n → Option (ℕ × Fin n)
  | 0, _, _ => none
  | fuel + 1, t, i => if free t i then some (t, i) else probeAlong free fuel (t + 1) (cycleNext i)

section ProbeAlong

variable {free : ℕ → Fin n → Bool} {fuel t : ℕ} {i : Fin n}

theorem free_of_probeAlong {u : ℕ} {j : Fin n} (h : probeAlong free fuel t i = some (u, j)) :
    free u j = true := by
  induction fuel generalizing t i with
  | zero => cases h
  | succ fuel ih =>
    rw [probeAlong] at h
    split_ifs at h with hfree
    · obtain ⟨rfl, rfl⟩ := Prod.mk.inj (Option.some_inj.mp h)
      exact hfree
    · exact ih h

/-- The entry that is tested after `d` misses. -/
def cycleFrom (i : Fin n) (d : ℕ) : Fin n := ⟨(i + d) % n, Nat.mod_lt _ i.pos⟩

theorem cycleFrom_zero (i : Fin n) : cycleFrom i 0 = i :=
  Fin.ext (Nat.mod_eq_of_lt i.isLt)

theorem cycleFrom_cycleNext (i : Fin n) (d : ℕ) :
    cycleFrom (cycleNext i) d = cycleFrom i (d + 1) := by
  refine Fin.ext ?_
  change ((i + 1) % n + d) % n = (i + (d + 1)) % n
  rw [Nat.mod_add_mod, Nat.add_assoc, Nat.add_comm 1 d]

/-- The loop ends if and only if one of its tests meets a free entry. -/
theorem exists_probeAlong_iff :
    (∃ fuel r, probeAlong free fuel t i = some r) ↔ ∃ d, free (t + d) (cycleFrom i d) = true := by
  constructor
  · rintro ⟨fuel, r, h⟩
    induction fuel generalizing t i with
    | zero => cases h
    | succ fuel ih =>
      rw [probeAlong] at h
      split_ifs at h with hfree
      · exact ⟨0, by rwa [cycleFrom_zero]⟩
      · obtain ⟨d, hd⟩ := ih h
        rw [cycleFrom_cycleNext, Nat.add_assoc, Nat.add_comm 1 d] at hd
        exact ⟨d + 1, hd⟩
  · rintro ⟨d, hd⟩
    induction d generalizing t i with
    | zero =>
      rw [cycleFrom_zero] at hd
      exact ⟨1, (t, i), if_pos hd⟩
    | succ d ih =>
      -- a free entry on the way ends the loop earlier
      by_cases hfree : free t i = true
      · exact ⟨1, (t, i), if_pos hfree⟩
      · rw [← cycleFrom_cycleNext, Nat.add_comm d 1, ← Nat.add_assoc] at hd
        obtain ⟨fuel, r, h⟩ := ih hd
        refine ⟨fuel + 1, r, ?_⟩
        rw [probeAlong, if_neg hfree, h]

end ProbeAlong

/-! ### Taking entries one after the other -/

/-- The number of free entries. -/
def freeCount (free : Fin n → Bool) : ℕ := (Finset.univ.filter fun i => free i = true).card

theorem freeCount_update {free : Fin n → Bool} {k : Fin n} (hk : free k = true) :
    freeCount free = freeCount (Function.update free k false) + 1 := by
  refine card_marked_add _ _ (List.nodup_singleton k) (fun i => ?_) (fun i hi => ?_)
  · by_cases hi : i = k
    · subst hi
      simp [hk]
    · simp [hi]
  · rw [List.mem_singleton.mp hi]
    simp

theorem exists_free_of_freeCount {free : Fin n → Bool} (h : 0 < freeCount free) :
    ∃ j, free j = true := by
  obtain ⟨j, hj⟩ := Finset.card_pos.mp h
  exact ⟨j, (Finset.mem_filter.mp hj).2⟩

/-- An index from any number, `r % n`. -/
def wrapIndex? (n r : ℕ) : Option (Fin n) :=
  if h : 0 < n then some ⟨r % n, Nat.mod_lt r h⟩ else none

variable {σ : Type*}

/-- Probe from each start in turn and take the entry that is found. -/
def takeEach (fuel : ℕ) (free : σ → Fin n → Bool) (take : σ → Fin n → Option σ) :
    σ → List ℕ → Option σ
  | s, [] => some s
  | s, r :: rs =>
    (wrapIndex? n r).bind fun i =>
      (probe (free s) fuel i).bind fun k =>
        (take s k).bind fun t => takeEach fuel free take t rs

section TakeEach

variable {free : σ → Fin n → Bool} {take : σ → Fin n → Option σ} {Inv : σ → Prop}

/-- What taking an entry keeps holds after all of them. -/
theorem takeEach_keeps (keep : ∀ s k t, Inv s → take s k = some t → Inv t) {s t : σ} (hs : Inv s)
    {fuel : ℕ} {rs : List ℕ} (h : takeEach fuel free take s rs = some t) : Inv t := by
  induction rs generalizing s with
  | nil =>
    obtain rfl := Option.some_inj.mp h
    exact hs
  | cons r rs ih =>
    obtain ⟨i, -, h⟩ := Option.bind_eq_some_iff.mp h
    obtain ⟨k, -, h⟩ := Option.bind_eq_some_iff.mp h
    obtain ⟨u, hu, hrest⟩ := Option.bind_eq_some_iff.mp h
    exact ih (keep s k u hs hu) hrest

/-- Enough free entries for all starts, with as many tests for each as there are entries. -/
theorem exists_takeEach
    (htake : ∀ s k, Inv s → free s k = true →
      ∃ t, take s k = some t ∧ Inv t ∧ free t = Function.update (free s) k false)
    {s : σ} (hs : Inv s) {rs : List ℕ} (hrs : rs.length ≤ freeCount (free s)) :
    ∃ t, takeEach n free take s rs = some t := by
  induction rs generalizing s with
  | nil => exact ⟨s, rfl⟩
  | cons r rs ih =>
    rw [List.length_cons] at hrs
    have hsome : 0 < freeCount (free s) := by omega
    obtain ⟨j, hj⟩ := exists_free_of_freeCount hsome
    have hstart : wrapIndex? n r = some ⟨r % n, Nat.mod_lt r j.pos⟩ := dif_pos j.pos
    obtain ⟨k, hk⟩ := exists_probe hj ⟨r % n, Nat.mod_lt r j.pos⟩
    have hfree := free_of_probe hk
    obtain ⟨u, hu, hinv, hleft⟩ := htake s k hs hfree
    have hcount := freeCount_update hfree
    obtain ⟨t, ht⟩ := ih hinv (by rw [hleft]; omega)
    refine ⟨t, ?_⟩
    simp only [takeEach, hstart, hk, hu, Option.bind_some]
    exact ht

theorem length_le_of_takeEach
    (htake : ∀ s k, Inv s → free s k = true →
      ∃ t, take s k = some t ∧ Inv t ∧ free t = Function.update (free s) k false)
    {s t : σ} (hs : Inv s) {fuel : ℕ} {rs : List ℕ} (h : takeEach fuel free take s rs = some t) :
    rs.length ≤ freeCount (free s) := by
  induction rs generalizing s with
  | nil => exact Nat.zero_le _
  | cons r rs ih =>
    obtain ⟨i, -, h⟩ := Option.bind_eq_some_iff.mp h
    obtain ⟨k, hk, h⟩ := Option.bind_eq_some_iff.mp h
    obtain ⟨u, hu, hrest⟩ := Option.bind_eq_some_iff.mp h
    have hfree := free_of_probe hk
    obtain ⟨u', hu', hinv, hleft⟩ := htake s k hs hfree
    rw [hu] at hu'
    obtain rfl := Option.some_inj.mp hu'
    have hlater := ih hinv hrest
    have hcount := freeCount_update hfree
    rw [hleft] at hlater
    rw [List.length_cons]
    omega

/-- When taking a free entry succeeds and takes it away, all probes end if and only if there
are as many free entries as starts. -/
theorem exists_takeEach_iff
    (htake : ∀ s k, Inv s → free s k = true →
      ∃ t, take s k = some t ∧ Inv t ∧ free t = Function.update (free s) k false)
    {s : σ} (hs : Inv s) (rs : List ℕ) :
    (∃ fuel t, takeEach fuel free take s rs = some t) ↔ rs.length ≤ freeCount (free s) := by
  constructor
  · rintro ⟨fuel, t, ht⟩
    exact length_le_of_takeEach htake hs ht
  · intro hrs
    exact ⟨n, exists_takeEach htake hs hrs⟩

end TakeEach

end SystemDev.Library
