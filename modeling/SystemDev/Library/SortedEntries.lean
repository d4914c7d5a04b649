import Mathlib.Data.List.Basic
import Mathlib.Order.Lattice

/-!
# Sorted lists of entries

A finite map over a linear order, written down in one way only: the list of its entries with the
keys strictly increasing. Every operation is followed through a list that is cut at one entry, which
is how a search tree meets it.
-/

namespace SystemDev.Library

variable {κ ν : Type*} {key k : κ} {val v : ν} {xs ys l : List (κ × ν)}

/-- Some entry has the key. -/
def HasKey (key : κ) (l : List (κ × ν)) : Prop := ∃ e ∈ l, e.1 = key

theorem hasKey_cut : HasKey key (xs ++ (k, v) :: ys) ↔
    HasKey key xs ∨ k = key ∨ HasKey key ys := by
  simp only [HasKey, List.mem_append, List.mem_cons]
  constructor
  · rintro ⟨e, he | rfl | he, rfl⟩
    · exact Or.inl ⟨e, he, rfl⟩
    · exact Or.inr (Or.inl rfl)
    · exact Or.inr (Or.inr ⟨e, he, rfl⟩)
  · rintro (⟨e, he, rfl⟩ | rfl | ⟨e, he, rfl⟩)
    · exact ⟨e, Or.inl he, rfl⟩
    · exact ⟨(k, v), Or.inr (Or.inl rfl), rfl⟩
    · exact ⟨e, Or.inr (Or.inr he), rfl⟩

variable [LinearOrder κ]

/-- The keys strictly increase. -/
def SortedEntries (l : List (κ × ν)) : Prop := l.Pairwise fun a b => a.1 < b.1

/-- The value at a key. -/
def entryAt (key : κ) (l : List (κ × ν)) : Option ν := (l.find? fun e => e.1 = key).map (·.2)

/-- Put a value at a key. -/
def insertEntry (key : κ) (val : ν) : List (κ × ν) → List (κ × ν)
  | [] => [(key, val)]
  | e :: l =>
    if key < e.1 then (key, val) :: e :: l
    else if e.1 < key then e :: insertEntry key val l
    else (key, val) :: l

/-- Drop the entry at a key. -/
def eraseEntry (key : κ) (l : List (κ × ν)) : List (κ × ν) := l.filter fun e => e.1 ≠ key

/-! ### A list cut at one entry -/

theorem sortedEntries_cut : SortedEntries (xs ++ (k, v) :: ys) ↔
    SortedEntries xs ∧ SortedEntries ys ∧ (∀ e ∈ xs, e.1 < k) ∧ ∀ e ∈ ys, k < e.1 := by
  unfold SortedEntries
  rw [List.pairwise_append, List.pairwise_cons]
  constructor
  · rintro ⟨hxs, ⟨hk, hys⟩, hcross⟩
    exact ⟨hxs, hys, fun e he => hcross e he (k, v) List.mem_cons_self, hk⟩
  · rintro ⟨hxs, hys, hlow, hhigh⟩
    refine ⟨hxs, ⟨hhigh, hys⟩, fun e he f hf => ?_⟩
    rcases List.mem_cons.mp hf with rfl | hf
    · exact hlow e he
    · exact (hlow e he).trans (hhigh f hf)

theorem hasKey_left (h : SortedEntries (xs ++ (k, v) :: ys)) (hkey : key < k) :
    HasKey key (xs ++ (k, v) :: ys) ↔ HasKey key xs := by
  rw [hasKey_cut]
  obtain ⟨-, -, -, hhigh⟩ := sortedEntries_cut.mp h
  constructor
  · rintro (hxs | rfl | ⟨e, he, rfl⟩)
    · exact hxs
    · exact absurd hkey (lt_irrefl _)
    · exact absurd hkey (hhigh e he).not_gt
  · exact Or.inl

theorem hasKey_right (h : SortedEntries (xs ++ (k, v) :: ys)) (hkey : k < key) :
    HasKey key (xs ++ (k, v) :: ys) ↔ HasKey key ys := by
  rw [hasKey_cut]
  obtain ⟨-, -, hlow, -⟩ := sortedEntries_cut.mp h
  constructor
  · rintro (⟨e, he, rfl⟩ | rfl | hys)
    · exact absurd hkey (hlow e he).not_gt
    · exact absurd hkey (lt_irrefl _)
    · exact hys
  · exact fun hys => Or.inr (Or.inr hys)

/-! ### Values -/

theorem entryAt_eq_none (h : ¬ HasKey key l) : entryAt key l = none := by
  rw [entryAt, Option.map_eq_none_iff, List.find?_eq_none]
  exact fun e he hkey => h ⟨e, he, by simpa using hkey⟩

theorem entryAt_isSome : (entryAt key l).isSome ↔ HasKey key l := by
  rw [entryAt, Option.isSome_map, List.find?_isSome]
  simp [HasKey]

theorem entryAt_append : entryAt key (xs ++ ys) = (entryAt key xs).or (entryAt key ys) := by
  rw [entryAt, List.find?_append]
  cases hxs : xs.find? fun e => e.1 = key with
  | none => simp [entryAt, hxs]
  | some e => simp [entryAt, hxs]

theorem entryAt_left (h : SortedEntries (xs ++ (k, v) :: ys)) (hkey : key < k) :
    entryAt key (xs ++ (k, v) :: ys) = entryAt key xs := by
  obtain ⟨-, -, -, hhigh⟩ := sortedEntries_cut.mp h
  have hrest : ¬ HasKey key ((k, v) :: ys) := by
    rintro ⟨e, he, rfl⟩
    rcases List.mem_cons.mp he with rfl | he
    · exact lt_irrefl _ hkey
    · exact lt_asymm hkey (hhigh e he)
  rw [entryAt_append, entryAt_eq_none hrest, Option.or_none]

theorem entryAt_right (h : SortedEntries (xs ++ (k, v) :: ys)) (hkey : k < key) :
    entryAt key (xs ++ (k, v) :: ys) = entryAt key ys := by
  obtain ⟨-, -, hlow, -⟩ := sortedEntries_cut.mp h
  have hxs : ¬ HasKey key xs := fun ⟨e, he, hek⟩ => lt_asymm hkey (hek ▸ hlow e he)
  rw [entryAt_append, entryAt_eq_none hxs, Option.none_or, entryAt, List.find?_cons,
    decide_eq_false hkey.ne]
  rfl

theorem entryAt_mid (h : SortedEntries (xs ++ (k, v) :: ys)) :
    entryAt k (xs ++ (k, v) :: ys) = some v := by
  obtain ⟨-, -, hlow, -⟩ := sortedEntries_cut.mp h
  have hxs : ¬ HasKey k xs := fun ⟨e, he, hek⟩ => (hlow e he).ne hek
  rw [entryAt_append, entryAt_eq_none hxs, Option.none_or, entryAt, List.find?_cons,
    decide_eq_true rfl]
  rfl

/-! ### Insertion -/

theorem mem_insertEntry {e : κ × ν} (h : e ∈ insertEntry key val l) : e = (key, val) ∨ e ∈ l := by
  induction l with
  | nil => exact Or.inl (List.mem_singleton.mp h)
  | cons f l ih =>
    rw [insertEntry] at h
    split at h
    · exact List.mem_cons.mp h
    · split at h
      · rcases List.mem_cons.mp h with rfl | h
        · exact Or.inr List.mem_cons_self
        · exact (ih h).imp_right (List.mem_cons_of_mem _)
      · exact (List.mem_cons.mp h).imp_right (List.mem_cons_of_mem _)

theorem length_insertEntry_le : (insertEntry key val l).length ≤ l.length + 1 := by
  induction l with
  | nil => exact Nat.le_refl _
  | cons e l ih =>
    rw [insertEntry]
    split_ifs
    · exact Nat.le_refl _
    · exact Nat.succ_le_succ ih
    · exact Nat.le_succ _

theorem insertEntry_ne_nil : insertEntry key val l ≠ [] := by
  cases l with
  | nil => exact List.cons_ne_nil _ _
  | cons e l =>
    rw [insertEntry]
    split
    · exact List.cons_ne_nil _ _
    · split <;> exact List.cons_ne_nil _ _

theorem SortedEntries.insertEntry (h : SortedEntries l) :
    SortedEntries (insertEntry key val l) := by
  induction l with
  | nil => exact List.pairwise_singleton _ _
  | cons f l ih =>
    obtain ⟨hf, hl⟩ := List.pairwise_cons.mp h
    rw [Library.insertEntry]
    split
    · rename_i hkey
      refine List.pairwise_cons.mpr ⟨fun e he => ?_, h⟩
      rcases List.mem_cons.mp he with rfl | he
      · exact hkey
      · exact hkey.trans (hf e he)
    · rename_i hkey
      split
      · rename_i hfkey
        refine List.pairwise_cons.mpr ⟨fun e he => ?_, ih hl⟩
        rcases mem_insertEntry he with rfl | he
        · exact hfkey
        · exact hf e he
      · rename_i hfkey
        have : f.1 = key := le_antisymm (not_lt.mp hkey) (not_lt.mp hfkey)
        exact List.pairwise_cons.mpr ⟨fun e he => this ▸ hf e he, hl⟩

/-- Entries with smaller keys are passed over. -/
theorem insertEntry_append (h : ∀ e ∈ xs, e.1 < key) :
    insertEntry key val (xs ++ ys) = xs ++ insertEntry key val ys := by
  induction xs with
  | nil => rfl
  | cons e xs ih =>
    have he := h e List.mem_cons_self
    rw [List.cons_append, insertEntry, if_neg he.not_gt, if_pos he,
      ih fun e he => h e (List.mem_cons_of_mem _ he), List.cons_append]

theorem insertEntry_left (hkey : key < k) :
    insertEntry key val (xs ++ (k, v) :: ys) = insertEntry key val xs ++ (k, v) :: ys := by
  induction xs with
  | nil => exact if_pos hkey
  | cons e xs ih =>
    rw [List.cons_append, insertEntry, insertEntry, ih]
    split
    · rfl
    · split <;> rfl

theorem insertEntry_right (h : SortedEntries (xs ++ (k, v) :: ys)) (hkey : k < key) :
    insertEntry key val (xs ++ (k, v) :: ys) = xs ++ (k, v) :: insertEntry key val ys := by
  obtain ⟨-, -, hlow, -⟩ := sortedEntries_cut.mp h
  rw [insertEntry_append fun e he => (hlow e he).trans hkey, insertEntry, if_neg hkey.not_gt,
    if_pos hkey]

theorem insertEntry_mid (h : SortedEntries (xs ++ (k, v) :: ys)) :
    insertEntry k val (xs ++ (k, v) :: ys) = xs ++ (k, val) :: ys := by
  obtain ⟨-, -, hlow, -⟩ := sortedEntries_cut.mp h
  rw [insertEntry_append hlow, insertEntry, if_neg (lt_irrefl _), if_neg (lt_irrefl _)]

/-! ### Removal -/

theorem SortedEntries.eraseEntry (h : SortedEntries l) : SortedEntries (eraseEntry key l) :=
  h.filter _

theorem eraseEntry_eq_self (h : ¬ HasKey key l) : eraseEntry key l = l := by
  rw [eraseEntry, List.filter_eq_self]
  exact fun e he => decide_eq_true fun hek => h ⟨e, he, hek⟩

theorem eraseEntry_append :
    eraseEntry key (xs ++ ys) = eraseEntry key xs ++ eraseEntry key ys :=
  List.filter_append ..

theorem eraseEntry_cons_self : eraseEntry k ((k, v) :: ys) = eraseEntry k ys :=
  List.filter_cons_of_neg (by simp)

theorem eraseEntry_cons_of_ne (h : k ≠ key) :
    eraseEntry key ((k, v) :: ys) = (k, v) :: eraseEntry key ys :=
  List.filter_cons_of_pos (by simpa using h)

theorem eraseEntry_left (h : SortedEntries (xs ++ (k, v) :: ys)) (hkey : key < k) :
    eraseEntry key (xs ++ (k, v) :: ys) = eraseEntry key xs ++ (k, v) :: ys := by
  obtain ⟨-, -, -, hhigh⟩ := sortedEntries_cut.mp h
  have hys : ¬ HasKey key ys := fun ⟨e, he, hek⟩ => lt_asymm hkey (hek ▸ hhigh e he)
  rw [eraseEntry_append, eraseEntry_cons_of_ne hkey.ne', eraseEntry_eq_self hys]

theorem eraseEntry_right (h : SortedEntries (xs ++ (k, v) :: ys)) (hkey : k < key) :
    eraseEntry key (xs ++ (k, v) :: ys) = xs ++ (k, v) :: eraseEntry key ys := by
  obtain ⟨-, -, hlow, -⟩ := sortedEntries_cut.mp h
  have hxs : ¬ HasKey key xs := fun ⟨e, he, hek⟩ => lt_asymm hkey (hek ▸ hlow e he)
  rw [eraseEntry_append, eraseEntry_cons_of_ne hkey.ne, eraseEntry_eq_self hxs]

theorem eraseEntry_mid (h : SortedEntries (xs ++ (k, v) :: ys)) :
    eraseEntry k (xs ++ (k, v) :: ys) = xs ++ ys := by
  obtain ⟨-, -, hlow, hhigh⟩ := sortedEntries_cut.mp h
  have hxs : ¬ HasKey k xs := fun ⟨e, he, hek⟩ => (hlow e he).ne hek
  have hys : ¬ HasKey k ys := fun ⟨e, he, hek⟩ => (hhigh e he).ne' hek
  rw [eraseEntry_append, eraseEntry_cons_self, eraseEntry_eq_self hxs, eraseEntry_eq_self hys]

/-! ### The keys -/

theorem entryAt_isSome_eq_any : (entryAt key l).isSome = l.any fun e => e.1 = key := by
  rw [entryAt, Option.isSome_map, List.isSome_find?]

theorem SortedEntries.keys (h : SortedEntries l) : (l.map Prod.fst).Pairwise (· < ·) :=
  List.pairwise_map.mpr h

theorem SortedEntries.nodup_keys (h : SortedEntries l) : (l.map Prod.fst).Nodup :=
  h.keys.imp fun hlt => hlt.ne

theorem SortedEntries.head_le {e f : κ × ν} (h : SortedEntries l) (he : l.head? = some e)
    (hf : f ∈ l) : e.1 ≤ f.1 := by
  cases l with
  | nil => exact absurd hf List.not_mem_nil
  | cons g l =>
    cases he
    rcases List.mem_cons.mp hf with rfl | hf
    · exact le_rfl
    · exact (List.rel_of_pairwise_cons h hf).le

theorem SortedEntries.le_getLast {e f : κ × ν} (h : SortedEntries l) (he : l.getLast? = some e)
    (hf : f ∈ l) : f.1 ≤ e.1 := by
  obtain ⟨xs, rfl⟩ := List.getLast?_eq_some_iff.mp he
  rcases List.mem_append.mp hf with hf | hf
  · exact ((sortedEntries_cut.mp h).2.2.1 f hf).le
  · rw [List.mem_singleton.mp hf]

/-- The keys below the one at a position are those before it. -/
theorem countP_lt_getElem {keys : List κ} (h : keys.Pairwise (· < ·)) {i : ℕ}
    (hi : i < keys.length) : keys.countP (· < keys[i]) = i := by
  induction keys generalizing i with
  | nil => exact absurd hi (Nat.not_lt_zero _)
  | cons k keys ih =>
    obtain ⟨hk, hkeys⟩ := List.pairwise_cons.mp h
    cases i with
    | zero =>
      refine List.countP_eq_zero.mpr fun a ha => ?_
      rcases List.mem_cons.mp ha with rfl | ha
      · simp
      · simpa using (hk a ha).le
    | succ i =>
      have hi : i < keys.length := Nat.lt_of_succ_lt_succ hi
      simp only [List.getElem_cons_succ, List.countP_cons]
      rw [ih hkeys hi, decide_eq_true (hk _ (List.getElem_mem hi)), if_pos rfl]

theorem countP_le_eq (keys : List κ) (hi : κ) :
    keys.countP (· ≤ hi) = keys.countP (· < hi) + keys.count hi := by
  induction keys with
  | nil => rfl
  | cons k keys ih =>
    rw [List.countP_cons, List.countP_cons, List.count_cons, ih]
    rcases lt_trichotomy k hi with hk | rfl | hk
    · simp [hk, hk.le, hk.ne]
      omega
    · simp
      omega
    · simp [hk.not_gt, hk.not_ge, hk.ne']

/-- The keys of an interval are those up to its end that are not before its start. -/
theorem countP_between (keys : List κ) {lo hi : κ} (h : lo ≤ hi) :
    keys.countP (fun k => lo ≤ k ∧ k ≤ hi) + keys.countP (· < lo) = keys.countP (· ≤ hi) := by
  induction keys with
  | nil => rfl
  | cons k keys ih =>
    rw [List.countP_cons, List.countP_cons, List.countP_cons, ← ih]
    by_cases hlo : lo ≤ k
    · simp [hlo, hlo.not_gt]
      omega
    · have hk : k ≤ hi := (not_le.mp hlo).le.trans h
      simp [hlo, not_le.mp hlo, hk]
      omega

end SystemDev.Library
