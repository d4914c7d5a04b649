import Mathlib.Data.Fintype.Card
import Mathlib.Data.Fintype.Pi
import Mathlib.Data.List.FinRange

/-!
# First-fit scans over a table

Many loops of systems code walk a fixed table in index order, act on the entries
that pass a test, count what they did, and leave the loop when the count reaches
a target. `scan` is that loop. When acting on one entry does not change the test
of another, the scan acts on a prefix of the entries that pass the test in the
initial state (`scan_fst`), and `chosen` says which prefix.

The folds left by a scan write one table entry per step, so each table they touch
has a closed form (`foldl_writes`), and the number of marked entries grows by the
number of steps (`card_marked_add`).
-/

namespace SystemDev.Library

variable {ι σ β : Type*}

/-- Walk `is` in order, act where `guard` holds, and leave the loop as soon as
`stop` holds of the number of actions so far. Returns the state and the count. -/
def scan (guard : σ → ι → Bool) (act : σ → ι → σ) (stop : ℕ → Bool) :
    List ι → ℕ → σ → σ × ℕ
  | [], k, s => (s, k)
  | i :: is, k, s =>
    if guard s i then
      if stop (k + 1) then (act s i, k + 1) else scan guard act stop is (k + 1) (act s i)
    else scan guard act stop is k s

/-- The entries of a candidate list that a counting loop reaches. -/
def chosen (stop : ℕ → Bool) : ℕ → List ι → List ι
  | _, [] => []
  | k, i :: is => i :: if stop (k + 1) then [] else chosen stop (k + 1) is

/-- The count target of a loop that leaves when its counter equals `n`. -/
def reaches (n : ℤ) (k : ℕ) : Bool := (k : ℤ) = n

theorem chosen_sublist (stop : ℕ → Bool) (k : ℕ) (l : List ι) : (chosen stop k l).Sublist l := by
  induction l generalizing k with
  | nil => exact .slnil
  | cons i l ih =>
    rw [chosen]
    split
    · exact List.Sublist.cons_cons i (List.nil_sublist l)
    · exact (ih (k + 1)).cons_cons i

theorem mem_of_mem_chosen {stop : ℕ → Bool} {k : ℕ} {l : List ι} {i : ι}
    (h : i ∈ chosen stop k l) : i ∈ l :=
  (chosen_sublist stop k l).subset h

/-- A target ahead of the counter takes that many candidates. -/
theorem chosen_reaches_of_lt {n : ℤ} {k : ℕ} (l : List ι) (h : (k : ℤ) < n) :
    chosen (reaches n) k l = l.take (n - k).toNat := by
  induction l generalizing k with
  | nil => simp [chosen]
  | cons i l ih =>
    have hsplit : (n - k).toNat = (n - (k + 1)).toNat + 1 := by omega
    rw [chosen, hsplit, List.take_succ_cons]
    by_cases hlast : ((k + 1 : ℕ) : ℤ) = n
    · have hzero : (n - (k + 1)).toNat = 0 := by omega
      simp [reaches, hlast, hzero]
    · simp only [reaches, hlast, decide_false, Bool.false_eq_true, if_false]
      rw [show chosen _ (k + 1) l = _ from ih (by push_cast at hlast ⊢; omega)]
      push_cast
      rfl

/-- A target the counter has already passed is never reached: the loop takes
every candidate. -/
theorem chosen_reaches_of_le {n : ℤ} {k : ℕ} (l : List ι) (h : n ≤ k) :
    chosen (reaches n) k l = l := by
  induction l generalizing k with
  | nil => rfl
  | cons i l ih =>
    have hnext : ¬ ((k + 1 : ℕ) : ℤ) = n := by push_cast; omega
    rw [chosen]
    simp only [reaches, hnext, decide_false, Bool.false_eq_true, if_false]
    rw [show chosen _ (k + 1) l = l from ih (by push_cast; omega)]

/-- How many entries a loop with target `n` acts on when there are `l.length`
candidates. -/
theorem length_chosen_reaches (n : ℤ) (l : List ι) :
    (chosen (reaches n) 0 l).length = if 0 < n then min n.toNat l.length else l.length := by
  split_ifs with hn
  · rw [chosen_reaches_of_lt l (by simpa using hn)]
    simp
  · rw [chosen_reaches_of_le l (by simpa using hn)]

section Scan

variable {guard : σ → ι → Bool} {act : σ → ι → σ} {stop : ℕ → Bool}

/-- Acting on one entry leaves the test of every other entry as it was. -/
def Independent (guard : σ → ι → Bool) (act : σ → ι → σ) : Prop :=
  ∀ s i j, i ≠ j → guard (act s i) j = guard s j

theorem scan_eq (hind : Independent guard act) {is : List ι} (hnd : is.Nodup) (k : ℕ) (s : σ) :
    scan guard act stop is k s =
      ((chosen stop k (is.filter (guard s))).foldl act s,
        k + (chosen stop k (is.filter (guard s))).length) := by
  induction is generalizing k s with
  | nil => rfl
  | cons i is ih =>
    obtain ⟨hi, hnd'⟩ := List.nodup_cons.mp hnd
    rw [scan]
    by_cases hguard : guard s i
    · -- the later candidates are the same before and after acting on `i`
      have hlater : is.filter (guard (act s i)) = is.filter (guard s) := by
        refine List.filter_congr fun j hj => hind s i j ?_
        rintro rfl
        exact hi hj
      rw [if_pos hguard, List.filter_cons_of_pos hguard, chosen]
      split
      · simp
      · rw [ih hnd', hlater]
        simp only [List.foldl_cons, List.length_cons]
        rw [Nat.add_right_comm, Nat.add_assoc]
    · rw [if_neg hguard, List.filter_cons_of_neg hguard, ih hnd']

theorem scan_fst (hind : Independent guard act) {is : List ι} (hnd : is.Nodup) (k : ℕ) (s : σ) :
    (scan guard act stop is k s).1 = (chosen stop k (is.filter (guard s))).foldl act s := by
  rw [scan_eq hind hnd]

end Scan

section Passes

variable {f : ι → Option β} {l : List ι}

/-- A fallible pass treats the entries of a list one by one. -/
theorem getElem?_of_mapM {l' : List β} {k : ℕ} {i : ι} (h : l.mapM f = some l')
    (hk : l[k]? = some i) : ∃ b, f i = some b ∧ l'[k]? = some b := by
  induction l generalizing l' k with
  | nil => simp at hk
  | cons j l ih =>
    simp only [List.mapM_cons, Option.bind_eq_bind, Option.bind_eq_some_iff] at h
    obtain ⟨b, hb, rest, hrest, h⟩ := h
    cases h
    cases k with
    | zero =>
      cases hk
      exact ⟨b, hb, List.getElem?_cons_zero⟩
    | succ k =>
      rw [List.getElem?_cons_succ]
      exact ih hrest hk

theorem exists_mapM (h : ∀ i ∈ l, ∃ b, f i = some b) : ∃ l', l.mapM f = some l' := by
  induction l with
  | nil => exact ⟨[], rfl⟩
  | cons i l ih =>
    obtain ⟨b, hb⟩ := h i List.mem_cons_self
    obtain ⟨rest, hrest⟩ := ih fun j hj => h j (List.mem_cons_of_mem i hj)
    exact ⟨b :: rest, by simp [hb, hrest]⟩

end Passes

section Folds

variable (act : σ → ι → σ)

theorem foldl_invariant {P : σ → Prop} (keep : ∀ s i, P s → P (act s i)) (l : List ι) {s : σ}
    (hs : P s) : P (l.foldl act s) := by
  induction l generalizing s with
  | nil => exact hs
  | cons i l ih => exact ih (keep s i hs)

/-- What every turn that returns keeps holds when the pass returns. -/
theorem foldlM_keeps {f : σ → ι → Option σ} {P : σ → Prop}
    (keep : ∀ s i t, P s → f s i = some t → P t) {l : List ι} {s t : σ} (hs : P s)
    (h : l.foldlM f s = some t) : P t := by
  induction l generalizing s with
  | nil =>
    obtain rfl := Option.some_inj.mp h
    exact hs
  | cons i l ih =>
    rw [List.foldlM_cons] at h
    obtain ⟨u, hu, hrest⟩ := Option.bind_eq_some_iff.mp h
    exact ih (keep s i u hs hu) hrest

/-- A fallible fold whose steps all succeed is a fold. `R` says, before each step,
what the rest of the list still relies on. -/
theorem foldlM_eq_some_foldl {f : σ → ι → Option σ} {R : List ι → σ → Prop}
    (h : ∀ i l s, R (i :: l) s → f s i = some (act s i) ∧ R l (act s i))
    (l : List ι) {s : σ} (hs : R l s) : l.foldlM f s = some (l.foldl act s) := by
  induction l generalizing s with
  | nil => rfl
  | cons i l ih =>
    obtain ⟨hstep, hrest⟩ := h i l s hs
    rw [List.foldlM_cons, hstep]
    exact ih hrest

/-- A loop whose body does two things side by side is two loops. -/
theorem foldlM_prod {τ : Type*} {f : σ × τ → ι → Option (σ × τ)} {g : σ → ι → Option σ}
    {h : τ → ι → Option τ}
    (hbody : ∀ p i, f p i = (g p.1 i).bind fun s => (h p.2 i).map fun t => (s, t))
    (l : List ι) (p : σ × τ) :
    l.foldlM f p = (l.foldlM g p.1).bind fun s => (l.foldlM h p.2).map fun t => (s, t) := by
  induction l generalizing p with
  | nil => rfl
  | cons i l ih =>
    rw [List.foldlM_cons, List.foldlM_cons, List.foldlM_cons, hbody]
    cases hg : g p.1 i with
    | none => rfl
    | some s =>
      cases hh : h p.2 i with
      | none =>
        -- the second loop fails here, whatever the first does behind it
        change none = (l.foldlM g s).bind fun _ => none
        rw [Option.bind_fun_none]
      | some t => exact ih (s, t)

/-- A projection that no action touches keeps its value over the whole fold. -/
theorem foldl_keeps (proj : σ → β) (h : ∀ s i, proj (act s i) = proj s) (l : List ι) (s : σ) :
    proj (l.foldl act s) = proj s :=
  foldl_invariant act (P := fun t => proj t = proj s) (fun t i ht => (h t i).trans ht) l rfl

/-- A fold that writes entry `i` of a table at step `i` sets the listed entries
and keeps the others. The written values may read whatever `P` pins down. -/
theorem foldl_writes [DecidableEq ι] (proj : σ → ι → β) (value : ι → β) (P : σ → Prop)
    (keep : ∀ s i, P s → P (act s i))
    (h : ∀ s i, P s → proj (act s i) = Function.update (proj s) i (value i))
    (l : List ι) {s : σ} (hs : P s) :
    proj (l.foldl act s) = fun j => if j ∈ l then value j else proj s j := by
  induction l generalizing s with
  | nil => simp
  | cons i l ih =>
    rw [List.foldl_cons, ih (keep s i hs), h s i hs]
    funext j
    -- a later write of `j` wins, and all writes of `j` write the same value
    by_cases hj : j ∈ l
    · simp [hj]
    · by_cases hji : j = i
      · subst hji
        simp [hj]
      · simp [hj, hji]

end Folds

/-- The marked entries after marking a duplicate-free list of unmarked ones. -/
theorem card_marked_add [Fintype ι] (p q : ι → Prop) [DecidablePred p] [DecidablePred q]
    {l : List ι} (hnd : l.Nodup) (hq : ∀ i, q i ↔ i ∈ l ∨ p i) (hnew : ∀ i ∈ l, ¬ p i) :
    (Finset.univ.filter q).card = (Finset.univ.filter p).card + l.length := by
  classical
  have hunion : Finset.univ.filter q = Finset.univ.filter p ∪ l.toFinset := by
    ext i
    simp [hq i, or_comm]
  have hdisj : Disjoint (Finset.univ.filter p) l.toFinset := by
    rw [Finset.disjoint_left]
    intro i hi hil
    exact hnew i (List.mem_toFinset.mp hil) (Finset.mem_filter.mp hi).2
  rw [hunion, Finset.card_union_of_disjoint hdisj, List.toFinset_card_of_nodup hnd]

/-- Counting a test over a table by listing the indices that pass it. -/
theorem length_filter_finRange {n : ℕ} (p : Fin n → Bool) :
    ((List.finRange n).filter p).length = (Finset.univ.filter fun i => p i = true).card := by
  rw [← List.toFinset_card_of_nodup ((List.nodup_finRange n).filter _)]
  congr 1
  ext i
  simp

end SystemDev.Library
