import Mathlib.Algebra.BigOperators.Fin
import Mathlib.Algebra.BigOperators.Group.Finset.Basic
import Mathlib.Data.Fintype.BigOperators

/-!
# Counting over finite tables

Sums over a table change by one entry when one entry is written, sums over a list are sums over
the set it runs through, and the range of a partial injection has as many elements as its domain.
-/

namespace SystemDev.Library

variable {α β : Type*}

/-- Writing one entry of a table moves a sum over it by that entry's weights. -/
theorem sum_index_update [Fintype α] [DecidableEq α] (g : α → β → ℕ) (f : α → β) (a : α) (b : β) :
    (∑ i, g i (Function.update f a b i)) + g a (f a) = (∑ i, g i (f i)) + g a b := by
  have hrest : ∑ i ∈ Finset.univ.erase a, g i (Function.update f a b i) =
      ∑ i ∈ Finset.univ.erase a, g i (f i) := by
    refine Finset.sum_congr rfl fun i hi => ?_
    rw [Function.update_of_ne (Finset.ne_of_mem_erase hi)]
  have hnew := Finset.add_sum_erase Finset.univ (fun i => g i (Function.update f a b i))
    (Finset.mem_univ a)
  have hold := Finset.add_sum_erase Finset.univ (fun i => g i (f i)) (Finset.mem_univ a)
  simp only [Function.update_self] at hnew hold
  omega

theorem sum_apply_update [Fintype α] [DecidableEq α] (g : β → ℕ) (f : α → β) (a : α) (b : β) :
    (∑ i, g (Function.update f a b i)) + g (f a) = (∑ i, g (f i)) + g b :=
  sum_index_update (fun _ => g) f a b

/-- A loop over all indices that adds up what belongs to a set. -/
theorem sum_map_finRange_ite {n : ℕ} [AddCommMonoid β] (S : Finset (Fin n)) (f : Fin n → β) :
    ((List.finRange n).map fun i => if i ∈ S then f i else 0).sum = ∑ i ∈ S, f i := by
  rw [← Fin.sum_univ_def, Finset.sum_ite_mem, Finset.univ_inter]

/-- A sum over what a partial function finds in a list. -/
theorem sum_map_filterMap {γ : Type*} [AddMonoid β] (f : α → Option γ) (g : γ → β) (l : List α) :
    ((l.filterMap f).map g).sum = (l.map fun a => ((f a).map g).getD 0).sum := by
  induction l with
  | nil => rfl
  | cons a l ih =>
    cases ha : f a with
    | none => simp [ha, ih]
    | some c => simp [ha, ih]

/-- The elements that belong to one of several classes are counted class by class. -/
theorem sum_card_filter_eq {γ : Type*} (S : Finset α) (C : Finset β) (kind : β → γ) (name : α → γ)
    [DecidableEq γ] (hname : Function.Injective name) :
    ∑ i ∈ S, (C.filter fun b => kind b = name i).card =
      (C.filter fun b => ∃ i ∈ S, kind b = name i).card := by
  classical
  rw [← Finset.card_biUnion]
  · congr 1
    ext b
    simp only [Finset.mem_biUnion, Finset.mem_filter]
    constructor
    · rintro ⟨i, hi, hb, hclass⟩
      exact ⟨hb, i, hi, hclass⟩
    · rintro ⟨hb, i, hi, hclass⟩
      exact ⟨i, hi, hb, hclass⟩
  · intro i _ l _ hil
    refine Finset.disjoint_filter.mpr fun b _ hi hl => hil (hname (hi.symm.trans hl))

/-- The range of a partial injection has one element for each argument with a value. -/
theorem card_range_option [Fintype α] [Fintype β] (f : α → Option β) (p : β → Prop)
    [DecidablePred p] (hp : ∀ b, p b ↔ ∃ a, f a = some b)
    (hinj : ∀ a a' b, f a = some b → f a' = some b → a = a') :
    (Finset.univ.filter p).card = ∑ a, if (f a).isSome then 1 else 0 := by
  rw [← Finset.card_filter]
  symm
  -- an argument with a value corresponds to that value
  refine Finset.card_bij (fun a ha => (f a).get (Finset.mem_filter.mp ha).2) ?_ ?_ ?_
  · intro a ha
    exact Finset.mem_filter.mpr ⟨Finset.mem_univ _, (hp _).mpr ⟨a, (Option.some_get _).symm⟩⟩
  · intro a ha b hb heq
    have hfa := (Option.some_get (Finset.mem_filter.mp ha).2).symm
    rw [heq] at hfa
    exact hinj a b _ hfa (Option.some_get _).symm
  · intro b hb
    obtain ⟨a, ha⟩ := (hp b).mp (Finset.mem_filter.mp hb).2
    exact ⟨a, Finset.mem_filter.mpr ⟨Finset.mem_univ _, by simp [ha]⟩, by simp [ha]⟩

/-- An element is counted by a test or by its negation. -/
theorem countP_add_countP_not (p : α → Bool) (l : List α) :
    l.countP p + l.countP (fun a => !p a) = l.length := by
  rw [List.length_eq_countP_add_countP p]
  congr 2
  funext a
  cases p a <;> rfl

end SystemDev.Library
