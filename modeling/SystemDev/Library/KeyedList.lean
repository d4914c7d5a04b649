import Mathlib.Algebra.BigOperators.Group.List.Basic
import Mathlib.Data.Int.Basic
import Mathlib.Data.List.Nodup
import Mathlib.Tactic.Abel

/-!
# Lists of records with distinct keys

A heap of records is kept as a list in which every record has its own key. One
record is rewritten in place, or dropped; a sum over the list changes by what that
record contributes.
-/

namespace SystemDev.Library

variable {α κ : Type*} [DecidableEq κ] {key : α → κ} {l : List α} {c d : α}

/-- Replace the record with the key of `c` by `c`. -/
def rewriteKey (key : α → κ) (c : α) (l : List α) : List α :=
  l.map fun d => if key d = key c then c else d

/-- Drop the record with the key of `c`. -/
def dropKey (key : α → κ) (c : α) (l : List α) : List α :=
  l.filter fun d => key d ≠ key c

theorem mem_rewriteKey (h : d ∈ rewriteKey key c l) : d = c ∨ d ∈ l ∧ key d ≠ key c := by
  obtain ⟨e, he, hed⟩ := List.mem_map.mp h
  by_cases hkey : key e = key c
  · rw [if_pos hkey] at hed
    exact Or.inl hed.symm
  · rw [if_neg hkey] at hed
    subst hed
    exact Or.inr ⟨he, hkey⟩

/-- Rewriting one record leaves the others in the list. -/
theorem mem_rewriteKey_iff (hd : key d ≠ key c) : d ∈ rewriteKey key c l ↔ d ∈ l := by
  constructor
  · intro h
    rcases mem_rewriteKey h with rfl | ⟨h, -⟩
    · exact absurd rfl hd
    · exact h
  · exact fun h => List.mem_map.mpr ⟨d, h, if_neg hd⟩

theorem mem_rewriteKey_self (hd : d ∈ l) (hkey : key c = key d) : c ∈ rewriteKey key c l :=
  List.mem_map.mpr ⟨d, hd, if_pos hkey.symm⟩

theorem mem_dropKey : d ∈ dropKey key c l ↔ d ∈ l ∧ key d ≠ key c := by
  simp [dropKey]

@[simp] theorem map_key_rewriteKey : (rewriteKey key c l).map key = l.map key := by
  rw [rewriteKey, List.map_map]
  refine List.map_congr_left fun e _ => ?_
  by_cases hkey : key e = key c
  · simp [hkey]
  · simp [hkey]

/-- Rewriting keeps what the new record has in common with the old one. -/
theorem map_rewriteKey {β : Type*} {f : α → β} (h : ∀ d ∈ l, key d = key c → f d = f c) :
    (rewriteKey key c l).map f = l.map f := by
  rw [rewriteKey, List.map_map]
  refine List.map_congr_left fun e he => ?_
  by_cases hkey : key e = key c
  · simp [hkey, h e he hkey]
  · simp [hkey]

/-- Looking up a key finds the new object in place of the old one. -/
theorem find?_rewriteKey (k : κ) :
    (rewriteKey key c l).find? (fun d => key d = k) =
      (l.find? fun d => key d = k).map fun d => if key d = key c then c else d := by
  have hkey : ∀ d, key (if key d = key c then c else d) = key d := by
    intro d
    split_ifs with h
    · exact h.symm
    · rfl
  rw [rewriteKey, List.find?_map]
  congr 2
  funext d
  simp only [Function.comp, hkey]

theorem rewriteKey_of_not_mem (h : key c ∉ l.map key) : rewriteKey key c l = l := by
  refine (List.map_congr_left fun e he => if_neg fun hkey => h ?_).trans (List.map_id l)
  exact hkey ▸ List.mem_map_of_mem he

theorem dropKey_of_not_mem (h : key c ∉ l.map key) : dropKey key c l = l := by
  refine List.filter_eq_self.mpr fun e he => ?_
  simp only [decide_eq_true_eq]
  exact fun hkey => h (hkey ▸ List.mem_map_of_mem he)

/-- Rewriting one record changes a sum by the difference of its contributions. -/
theorem sum_map_rewriteKey (f : α → ℤ) (hnd : (l.map key).Nodup) (hd : d ∈ l)
    (hkey : key c = key d) :
    ((rewriteKey key c l).map f).sum = (l.map f).sum + (f c - f d) := by
  induction l with
  | nil => exact absurd hd List.not_mem_nil
  | cons e l ih =>
    obtain ⟨he, hnd'⟩ := List.nodup_cons.mp hnd
    -- the record with the key is the first one, and no other has it, or it is in the rest
    rcases List.mem_cons.mp hd with rfl | hd
    · have hrest : rewriteKey key c l = l := rewriteKey_of_not_mem (hkey ▸ he)
      have hcons : rewriteKey key c (d :: l) = c :: rewriteKey key c l := by
        simp [rewriteKey, hkey]
      rw [hcons, hrest, List.map_cons, List.sum_cons, List.map_cons, List.sum_cons]
      abel
    · have hne : key e ≠ key c := fun h => he (h.trans hkey ▸ List.mem_map_of_mem hd)
      have hcons : rewriteKey key c (e :: l) = e :: rewriteKey key c l := by
        simp [rewriteKey, hne]
      rw [hcons, List.map_cons, List.sum_cons, ih hnd' hd, List.map_cons, List.sum_cons]
      abel

/-- Dropping one record takes its contribution out of a sum. -/
theorem sum_map_dropKey (f : α → ℤ) (hnd : (l.map key).Nodup) (hd : d ∈ l) :
    ((dropKey key d l).map f).sum = (l.map f).sum - f d := by
  induction l with
  | nil => exact absurd hd List.not_mem_nil
  | cons e l ih =>
    obtain ⟨he, hnd'⟩ := List.nodup_cons.mp hnd
    rcases List.mem_cons.mp hd with rfl | hd
    · have hcons : dropKey key d (d :: l) = dropKey key d l := by simp [dropKey]
      rw [hcons, dropKey_of_not_mem he, List.map_cons, List.sum_cons]
      abel
    · have hne : key e ≠ key d := fun h => he (h ▸ List.mem_map_of_mem hd)
      have hcons : dropKey key d (e :: l) = e :: dropKey key d l := by simp [dropKey, hne]
      rw [hcons, List.map_cons, List.sum_cons, ih hnd' hd, List.map_cons, List.sum_cons]
      abel

theorem length_dropKey (hnd : (l.map key).Nodup) (hd : d ∈ l) :
    ((dropKey key d l).length : ℤ) = l.length - 1 := by
  simpa using sum_map_dropKey (fun _ => 1) hnd hd

end SystemDev.Library
