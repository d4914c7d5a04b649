import SystemDev.Library.SortedEntries
import SystemDev.RedBlack.Node

/-!
# What relinking keeps

A rotation and a change of colours leave the entries of a tree, read in order, as they are, and keep
the counts of its subtrees right. Only the count at the root is behind while a method is at work
below it; `balance` and the end of `put` bring it up to date.
-/

namespace SystemDev.RedBlack.Node

variable {κ ν : Type} {t t' t'' : Node κ ν}

/-- The entries, read in order. -/
def entries : Node κ ν → List (κ × ν)
  | null => []
  | node key val left right _ _ => left.entries ++ (key, val) :: right.entries

/-- Every count is the number of nodes. -/
def Sized : Node κ ν → Prop
  | null => True
  | node _ _ left right _ n => left.Sized ∧ right.Sized ∧ n = left.count + right.count + 1

/-- Every count is the number of nodes, but perhaps that of the root. -/
def SizedBelow : Node κ ν → Prop
  | null => True
  | node _ _ left right _ _ => left.Sized ∧ right.Sized

/-- No count has left the range of an `int`. -/
def CountsFit : Node κ ν → Prop
  | null => True
  | node _ _ left right _ n => left.CountsFit ∧ right.CountsFit ∧ n < 2 ^ 31

/-- The count at the root bounds the others. -/
theorem Sized.countsFit (h : t.Sized) (hlt : t.count < 2 ^ 31) : t.CountsFit := by
  induction t with
  | null => trivial
  | node k v left right c n ihl ihr =>
    obtain ⟨hl, hr, hn⟩ := h
    rw [count] at hlt
    exact ⟨ihl hl (by omega), ihr hr (by omega), by omega⟩

theorem count_eq_length : ∀ t : Node κ ν, t.count = t.entries.length
  | null => rfl
  | node _ _ left right _ _ => by
    rw [count, entries, List.length_append, List.length_cons, left.count_eq_length,
      right.count_eq_length, Nat.add_assoc]

theorem Sized.size_eq (h : t.Sized) : t.size = t.count := by
  cases t with
  | null => rfl
  | node => exact h.2.2

theorem Sized.below (h : t.Sized) : t.SizedBelow := by
  cases t with
  | null => trivial
  | node => exact ⟨h.1, h.2.1⟩

/-! ### Rearranging -/

/-- `t'` is `t` with other links. -/
structure Rearranges (t t' : Node κ ν) : Prop where
  entries_eq : t'.entries = t.entries
  sizedBelow : t.SizedBelow → t'.SizedBelow
  sized : t.Sized → t'.Sized

/-- `t'` is `t` with other links, and with the count at the root put right. -/
structure Restores (t t' : Node κ ν) : Prop where
  entries_eq : t'.entries = t.entries
  sized : t.SizedBelow → t'.Sized

theorem Rearranges.refl (t : Node κ ν) : Rearranges t t := ⟨rfl, id, id⟩

theorem Rearranges.trans (h : Rearranges t t') (h' : Rearranges t' t'') : Rearranges t t'' :=
  ⟨h'.entries_eq.trans h.entries_eq, h'.sizedBelow ∘ h.sizedBelow, h'.sized ∘ h.sized⟩

theorem Rearranges.trans_restores (h : Rearranges t t') (h' : Restores t' t'') :
    Restores t t'' :=
  ⟨h'.entries_eq.trans h.entries_eq, h'.sized ∘ h.sizedBelow⟩

theorem Rearranges.count_eq (h : Rearranges t t') : t'.count = t.count := by
  rw [count_eq_length, count_eq_length, h.entries_eq]

theorem rotateRight_rearranges (h : t.rotateRight = some t') : Rearranges t t' := by
  match t, h with
  | node _ _ (node _ _ xLeft xRight _ _) right _ _, h =>
    cases h
    refine ⟨by simp [entries], ?_, ?_⟩
    · rintro ⟨⟨hl, hr, -⟩, hright⟩
      exact ⟨hl, hr, hright, by rw [hr.size_eq, hright.size_eq]⟩
    · rintro ⟨⟨hl, hr, -⟩, hright, rfl⟩
      refine ⟨hl, ⟨hr, hright, by rw [hr.size_eq, hright.size_eq]⟩, ?_⟩
      simp only [count]
      omega

theorem rotateLeft_rearranges (h : t.rotateLeft = some t') : Rearranges t t' := by
  match t, h with
  | node _ _ left (node _ _ xLeft xRight _ _) _ _, h =>
    cases h
    refine ⟨by simp [entries], ?_, ?_⟩
    · rintro ⟨hleft, hl, hr, -⟩
      exact ⟨⟨hleft, hl, by rw [hl.size_eq, hleft.size_eq]⟩, hr⟩
    · rintro ⟨hleft, ⟨hl, hr, -⟩, rfl⟩
      refine ⟨⟨hleft, hl, by rw [hl.size_eq, hleft.size_eq]⟩, hr, ?_⟩
      simp only [count]
      omega

theorem flipColors_rearranges (h : t.flipColors = some t') : Rearranges t t' := by
  match t, h with
  | node _ _ (node ..) (node ..) _ _, h =>
    cases h
    exact ⟨rfl, id, id⟩

theorem setSize_restores (h : t.setSize = some t') : Restores t t' := by
  match t, h with
  | node _ _ left right _ _, h =>
    cases h
    exact ⟨rfl, fun hs => ⟨hs.1, hs.2, by rw [hs.1.size_eq, hs.2.size_eq]⟩⟩

/-- Rearranging the right subtree. -/
theorem Rearranges.right {key : κ} {val : ν} {left right right' : Node κ ν} {color : Bool} {n : ℕ}
    (h : Rearranges right right') :
    Rearranges (node key val left right color n) (node key val left right' color n) := by
  refine ⟨by rw [entries, entries, h.entries_eq], fun hs => ⟨hs.1, h.sized hs.2⟩, ?_⟩
  rintro ⟨hl, hr, hn⟩
  exact ⟨hl, h.sized hr, by rw [hn, h.count_eq]⟩

theorem moveRedLeft_rearranges (h : t.moveRedLeft = some t') : Rearranges t t' := by
  obtain ⟨u, hflip, h⟩ := Option.bind_eq_some_iff.mp h
  refine (flipColors_rearranges hflip).trans ?_
  match u, h with
  | node key val left right color n, h =>
    obtain ⟨red, -, h⟩ := Option.bind_eq_some_iff.mp h
    cases red with
    | false =>
      cases h
      exact .refl _
    | true =>
      obtain ⟨right', hright, h⟩ := Option.bind_eq_some_iff.mp h
      obtain ⟨u, hleft, h⟩ := Option.bind_eq_some_iff.mp h
      exact ((rotateRight_rearranges hright).right.trans (rotateLeft_rearranges hleft)).trans
        (flipColors_rearranges h)

theorem moveRedRight_rearranges (h : t.moveRedRight = some t') : Rearranges t t' := by
  obtain ⟨u, hflip, h⟩ := Option.bind_eq_some_iff.mp h
  refine (flipColors_rearranges hflip).trans ?_
  match u, h with
  | node key val left right color n, h =>
    obtain ⟨red, -, h⟩ := Option.bind_eq_some_iff.mp h
    cases red with
    | false =>
      cases h
      exact .refl _
    | true =>
      obtain ⟨u, hright, h⟩ := Option.bind_eq_some_iff.mp h
      exact (rotateRight_rearranges hright).trans (flipColors_rearranges h)

/-! ### The steps of the methods -/

/-- A step that is made under a condition. -/
theorem rearranges_ite {p : Prop} [Decidable p] {f : Node κ ν → Option (Node κ ν)}
    (hf : ∀ {t'}, f t = some t' → Rearranges t t') (h : (if p then f t else some t) = some t') :
    Rearranges t t' := by
  split at h
  · exact hf h
  · cases h
    exact .refl _

theorem splitFour_restores (h : t.splitFour = some t') : Restores t t' := by
  match t, h with
  | node .., h =>
    obtain ⟨u, hrotate, h⟩ := Option.bind_eq_some_iff.mp h
    have hu := rearranges_ite rotateRight_rearranges hrotate
    match u, h with
    | node .., h =>
      obtain ⟨w, hflip, h⟩ := Option.bind_eq_some_iff.mp h
      exact (hu.trans (rearranges_ite flipColors_rearranges hflip)).trans_restores
        (setSize_restores h)

theorem balance_restores (h : t.balance = some t') : Restores t t' := by
  match t, h with
  | node .., h =>
    obtain ⟨u, hrotate, h⟩ := Option.bind_eq_some_iff.mp h
    exact (rearranges_ite rotateLeft_rearranges hrotate).trans_restores (splitFour_restores h)

theorem fixUp_restores (h : t.fixUp = some t') : Restores t t' := by
  match t, h with
  | node .., h =>
    obtain ⟨u, hrotate, h⟩ := Option.bind_eq_some_iff.mp h
    exact (rearranges_ite rotateLeft_rearranges hrotate).trans_restores (splitFour_restores h)

theorem leanRight_rearranges (h : t.leanRight = some t') : Rearranges t t' := by
  match t, h with
  | node .., h => exact rearranges_ite rotateRight_rearranges h

theorem prepareLeft_rearranges (h : t.prepareLeft = some t') : Rearranges t t' := by
  match t, h with
  | node _ _ left _ _ _, h =>
    rw [prepareLeft] at h
    split at h
    · cases h
      exact .refl _
    · obtain ⟨red, -, h⟩ := Option.bind_eq_some_iff.mp h
      cases red with
      | false => exact moveRedLeft_rearranges h
      | true =>
        cases h
        exact .refl _

theorem prepareRight_rearranges (h : t.prepareRight = some t') : Rearranges t t' := by
  match t, h with
  | node _ _ _ right _ _, h =>
    rw [prepareRight] at h
    split at h
    · cases h
      exact .refl _
    · obtain ⟨red, -, h⟩ := Option.bind_eq_some_iff.mp h
      cases red with
      | false => exact moveRedRight_rearranges h
      | true =>
        cases h
        exact .refl _

end SystemDev.RedBlack.Node
