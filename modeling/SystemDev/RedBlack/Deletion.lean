import SystemDev.RedBlack.Insertion

/-!
# Deletion

A deletion descends only from nodes that are red or have a red child on its way, so that the node it
takes out at the bottom is red. Where the next node has no red link to offer, the colours around it
are rearranged first: to the left the red link is borrowed from the sibling, to the right a red link
of the sibling is carried over the root, which leaves the next node leaning right. On the way back
`balance` restores the tree, with the black height it had and no new red root.
-/

namespace SystemDev.RedBlack.Node

open Library

variable {κ ν : Type}

/-- A node from which a deletion can descend: it is red, or black with a red left child. -/
inductive Deletable : Bool → ℕ → Node κ ν → Prop
  | red {h : ℕ} {t : Node κ ν} (ht : LeftLeaning true h t) : Deletable true h t
  | black {h : ℕ} {k : κ} {v : ν} {left right : Node κ ν} {n : ℕ}
      (hl : LeftLeaning true h left) (hr : LeftLeaning false h right) :
      Deletable false (h + 1) (node k v left right false n)

/-- A black node with key `k` whose only red child is the right one. -/
inductive RightLeaning : κ → ℕ → Node κ ν → Prop
  | mk {h : ℕ} {k : κ} {v : ν} {left right : Node κ ν} {n : ℕ}
      (hl : LeftLeaning false h left) (hr : LeftLeaning true h right) :
      RightLeaning k (h + 1) (node k v left right false n)

/-- What a deletion leaves of a tree with a root of the given colour: a black root stays black. -/
def Repaired (c : Bool) (h : ℕ) (t : Node κ ν) : Prop :=
  ∃ c', LeftLeaning c' h t ∧ (c' = true → c = true)

/-- The tree before the step to the left, where the key of the root was `k`. -/
inductive ReadyLeft : κ → Bool → ℕ → Node κ ν → Prop
  | red {h : ℕ} {k : κ} {v : ν} {left right : Node κ ν} {n : ℕ}
      (hl : Deletable false h left) (hr : LeftLeaning false h right) :
      ReadyLeft k true h (node k v left right true n)
  | borrowed {h : ℕ} {k k' : κ} {v v' : ν} {leftLeft leftRight right : Node κ ν} {n n' : ℕ}
      (hll : LeftLeaning true h leftLeft) (hlr : LeftLeaning false h leftRight)
      (hr : LeftLeaning false (h + 1) right) :
      ReadyLeft k true (h + 1) (node k' v' (node k v leftLeft leftRight false n) right true n')
  | black {c : Bool} {h : ℕ} {k : κ} {v : ν} {left right : Node κ ν} {n : ℕ}
      (hl : LeftLeaning true h left) (hr : LeftLeaning c h right) :
      ReadyLeft k c (h + 1) (node k v left right false n)

/-- The tree after a red left link has been turned to the right, where the key of the root was
`k`. -/
inductive Leaned : κ → Bool → ℕ → Node κ ν → Prop
  | red {h : ℕ} {k : κ} {v : ν} {left right : Node κ ν} {n : ℕ}
      (hl : LeftLeaning false h left) (hr : LeftLeaning false h right) :
      Leaned k true h (node k v left right true n)
  | black {h : ℕ} {k : κ} {v : ν} {left right : Node κ ν} {n : ℕ}
      (hl : LeftLeaning false h left) (hr : LeftLeaning true h right) :
      Leaned k false (h + 1) (node k v left right false n)
  | turned {h : ℕ} {k k' : κ} {v v' : ν} {left rightLeft rightRight : Node κ ν} {n n' : ℕ}
      (hl : LeftLeaning false h left) (hrl : LeftLeaning false h rightLeft)
      (hrr : LeftLeaning false h rightRight) :
      Leaned k false (h + 1) (node k' v' left (node k v rightLeft rightRight true n) false n')

/-- The tree before the step to the right, where the key of the root was `k`. -/
inductive ReadyRight : κ → Bool → ℕ → Node κ ν → Prop
  | red {h : ℕ} {k : κ} {v : ν} {left right : Node κ ν} {n : ℕ}
      (hl : LeftLeaning false h left) (hr : Deletable false h right) :
      ReadyRight k true h (node k v left right true n)
  | carried {h : ℕ} {k k' : κ} {v' : ν} {left right : Node κ ν} {n' : ℕ}
      (hl : LeftLeaning false h left) (hr : RightLeaning k h right) :
      ReadyRight k true h (node k' v' left right true n')
  | black {c : Bool} {h : ℕ} {k : κ} {v : ν} {left right : Node κ ν} {n : ℕ}
      (hl : LeftLeaning c h left) (hr : LeftLeaning true h right) :
      ReadyRight k c (h + 1) (node k v left right false n)

/-- A node that a deletion can pass on its way to the right, to keys that are not below `k`. -/
inductive Passable (k : κ) : Bool → ℕ → Node κ ν → Prop
  | deletable {c : Bool} {h : ℕ} {t : Node κ ν} (ht : Deletable c h t) : Passable k c h t
  | turned {h : ℕ} {t : Node κ ν} (ht : RightLeaning k h t) : Passable k false h t

section Shape

variable {k k₀ : κ} {v : ν} {c color : Bool} {h n : ℕ} {left right t : Node κ ν}

theorem LeftLeaning.repaired (ht : LeftLeaning c h t) : Repaired c h t := ⟨c, ht, id⟩

theorem Repaired.of_black (ht : Repaired false h t) : LeftLeaning false h t := by
  obtain ⟨c', ht, hc⟩ := ht
  cases c' with
  | false => exact ht
  | true => exact absurd (hc rfl) Bool.false_ne_true

theorem LeftLeaning.exists_black (ht : LeftLeaning false (h + 1) t) :
    ∃ c k v left right n, t = node k v left right false n ∧ LeftLeaning c h left ∧
      LeftLeaning false h right := by
  cases ht with
  | black hl hr => exact ⟨_, _, _, _, _, _, rfl, hl, hr⟩

theorem Deletable.ne_null (ht : Deletable c h t) : t ≠ null := by
  rintro rfl
  cases ht with
  | red ht => cases ht

/-- A node without a left child is a leaf. -/
theorem LeftLeaning.right_eq_null (ht : LeftLeaning c h (node k v Node.null right color n)) :
    right = Node.null := by
  cases ht with
  | black hl hr =>
    cases hl
    cases hr
    rfl
  | red hl hr =>
    cases hl
    cases hr
    rfl

/-! ### `balance` -/

theorem balance_eq (hr : right.isRed = false) :
    (node k v left right color n).balance = (node k v left right color n).splitFour := by
  simp [balance, hr]

theorem balance_rotate {k' : κ} {v' : ν} {n' : ℕ} {rightLeft rightRight : Node κ ν} :
    (node k v left (node k' v' rightLeft rightRight true n') color n).balance =
      (node k' v' (node k v left rightLeft true (left.size + rightLeft.size + 1))
        rightRight color n).splitFour := by
  simp [balance, rotateLeft]

theorem balance_red (hl : LeftLeaning false h left) (hr : LeftLeaning false h right) :
    ∃ t', (node k v left right true n).balance = some t' ∧ Repaired true h t' := by
  rw [balance_eq hr.isRed_eq]
  refine ⟨_, splitFour_eq hr.isRed_eq ?_, (LeftLeaning.red hl hr).repaired⟩
  rw [hl.isRed_eq, Bool.false_and]

theorem balance_black {cl cr : Bool} (hl : LeftLeaning cl h left) (hr : LeftLeaning cr h right) :
    ∃ t', (node k v left right false n).balance = some t' ∧
      LeftLeaning (cl && cr) (h + 1) t' := by
  cases cr with
  | false =>
    rw [balance_eq hr.isRed_eq, Bool.and_false]
    exact splitFour_black hl hr
  | true =>
    obtain ⟨_, _, _, _, _, rfl, hrl, hrr⟩ := hr.exists_red
    rw [balance_rotate, Bool.and_true]
    cases cl with
    | false => exact splitFour_black (.red hl hrl) hrr
    | true => exact splitFour_rotate hl hrl hrr

/-! ### The step to the left -/

theorem moveRedLeft_ready (hl : LeftLeaning false (h + 1) left)
    (hll : left.isRedLeft = some false) (hr : LeftLeaning false (h + 1) right) :
    ∃ t', (node k v left right true n).moveRedLeft = some t' ∧ ReadyLeft k true (h + 1) t' := by
  obtain ⟨cl, _, _, _, _, _, rfl, hll', hlr⟩ := hl.exists_black
  obtain ⟨cr, _, _, _, _, _, rfl, hrl, hrr⟩ := hr.exists_black
  obtain rfl : cl = false := hll'.isRed_eq ▸ Option.some.inj hll
  cases cr with
  | false =>
    simp [moveRedLeft, flipColors, hrl.isRed_eq]
    exact .black (.red hll' hlr) (.red hrl hrr)
  | true =>
    -- the sibling's red link comes over the root
    obtain ⟨_, _, _, _, _, rfl, hrll, hrlr⟩ := hrl.exists_red
    simp [moveRedLeft, flipColors, rotateRight, rotateLeft]
    exact .borrowed (.red hll' hlr) hrll (.black hrlr hrr)

theorem Deletable.prepareLeft (ht : Deletable c h (node k v left right color n))
    (hne : left ≠ Node.null) :
    ∃ t', (node k v left right color n).prepareLeft = some t' ∧ ReadyLeft k c h t' := by
  cases ht with
  | black hl hr =>
    rw [Node.prepareLeft, if_pos hl.isRed_eq]
    exact ⟨_, rfl, .black hl hr⟩
  | red ht =>
    cases ht with
    | @red _ _ _ _ _ _ hl hr =>
      rw [Node.prepareLeft, if_neg (by simp [hl.isRed_eq])]
      cases hl with
      | null => exact absurd rfl hne
      | @black cl h _ _ _ _ _ hll hlr =>
        rw [isRedLeft_node, hll.isRed_eq, Option.bind_some]
        cases cl with
        | true => exact ⟨_, rfl, .red (.black hll hlr) hr⟩
        | false =>
          exact moveRedLeft_ready (.black hll hlr) (congrArg some hll.isRed_eq) hr

/-- The left child can be descended to, and the tree is repaired once that is done. -/
theorem ReadyLeft.descend (ht : ReadyLeft k₀ c h (node k v left right color n)) :
    ∃ c' h', Deletable c' h' left ∧ ∀ left', Repaired c' h' left' →
      ∃ t', (node k v left' right color n).balance = some t' ∧ Repaired c h t' := by
  cases ht with
  | red hl hr => exact ⟨_, _, hl, fun left' hl' => balance_red hl'.of_black hr⟩
  | borrowed hll hlr hr =>
    exact ⟨_, _, .black hll hlr, fun left' hl' => balance_red hl'.of_black hr⟩
  | black hl hr =>
    refine ⟨_, _, .red hl, fun left' hl' => ?_⟩
    obtain ⟨c', hl', -⟩ := hl'
    obtain ⟨t', hbalance, ht'⟩ := balance_black hl' hr
    exact ⟨t', hbalance, _, ht', fun hc => (Bool.and_eq_true _ _ ▸ hc).2⟩

/-! ### The step to the right -/

theorem Passable.leanRight (ht : Passable k c h (node k v left right color n)) :
    ∃ t', (node k v left right color n).leanRight = some t' ∧ Leaned k c h t' := by
  cases ht with
  | deletable ht =>
    cases ht with
    | red ht =>
      cases ht with
      | red hl hr =>
        rw [Node.leanRight, if_neg (by simp [hl.isRed_eq])]
        exact ⟨_, rfl, .red hl hr⟩
    | black hl hr =>
      obtain ⟨_, _, _, _, _, rfl, hll, hlr⟩ := hl.exists_red
      exact ⟨_, rfl, .turned hll hlr hr⟩
  | turned ht =>
    cases ht with
    | mk hl hr =>
      rw [Node.leanRight, if_neg (by simp [hl.isRed_eq])]
      exact ⟨_, rfl, .black hl hr⟩

theorem moveRedRight_ready (hl : LeftLeaning false (h + 1) left)
    (hr : LeftLeaning false (h + 1) right) (hrl : right.isRedLeft = some false) :
    ∃ t', (node k v left right true n).moveRedRight = some t' ∧ ReadyRight k true (h + 1) t' := by
  obtain ⟨cl, _, _, _, _, _, rfl, hll, hlr⟩ := hl.exists_black
  obtain ⟨cr, _, _, _, _, _, rfl, hrl', hrr⟩ := hr.exists_black
  obtain rfl : cr = false := hrl'.isRed_eq ▸ Option.some.inj hrl
  cases cl with
  | false =>
    simp [moveRedRight, flipColors, hll.isRed_eq]
    exact .black (.red hll hlr) (.red hrl' hrr)
  | true =>
    -- the root goes to the right, and leans to it
    obtain ⟨_, _, _, _, _, rfl, hlll, hllr⟩ := hll.exists_red
    simp [moveRedRight, flipColors, rotateRight]
    exact .carried (.black hlll hllr) (.mk hlr (.red hrl' hrr))

theorem Leaned.prepareRight (ht : Leaned k₀ c h (node k v left right color n))
    (hne : right ≠ Node.null) :
    ∃ t', (node k v left right color n).prepareRight = some t' ∧ ReadyRight k c h t' := by
  cases ht with
  | black hl hr =>
    rw [Node.prepareRight, if_pos hr.isRed_eq]
    exact ⟨_, rfl, .black hl hr⟩
  | turned hl hrl hrr => exact ⟨_, rfl, .black hl (.red hrl hrr)⟩
  | red hl hr =>
    rw [Node.prepareRight, if_neg (by simp [hr.isRed_eq])]
    cases hr with
    | null => exact absurd rfl hne
    | @black cr h _ _ _ _ _ hrl hrr =>
      rw [isRedLeft_node, hrl.isRed_eq, Option.bind_some]
      cases cr with
      | true => exact ⟨_, rfl, .red hl (.black hrl hrr)⟩
      | false => exact moveRedRight_ready hl (.black hrl hrr) (congrArg some hrl.isRed_eq)

/-- The right child can be descended to, and the tree is repaired once that is done, even if the
entry at its root is replaced. -/
theorem ReadyRight.descend (ht : ReadyRight k₀ c h (node k v left right color n)) :
    ∃ c' h', Passable k₀ c' h' right ∧ ∀ k' v' right', Repaired c' h' right' →
      ∃ t', (node k' v' left right' color n).balance = some t' ∧ Repaired c h t' := by
  cases ht with
  | red hl hr =>
    exact ⟨_, _, .deletable hr, fun k' v' right' hr' => balance_red hl hr'.of_black⟩
  | carried hl hr =>
    exact ⟨_, _, .turned hr, fun k' v' right' hr' => balance_red hl hr'.of_black⟩
  | black hl hr =>
    refine ⟨_, _, .deletable (.red hr), fun k' v' right' hr' => ?_⟩
    obtain ⟨c', hr', -⟩ := hr'
    obtain ⟨t', hbalance, ht'⟩ := balance_black hl hr'
    exact ⟨t', hbalance, _, ht', fun hc => (Bool.and_eq_true _ _ ▸ hc).1⟩

/-- A node without a right child is a leaf, unless a red left link was to be turned. -/
theorem Leaned.leaf (ht : Leaned k₀ c h (node k v left Node.null color n)) :
    c = true ∧ left = Node.null ∧ LeftLeaning true h (node k v Node.null Node.null color n) := by
  cases ht with
  | black _ hr => cases hr
  | red hl hr =>
    cases hr
    cases hl
    exact ⟨rfl, rfl, .red .null .null⟩

theorem Passable.ne_null (ht : Passable k c h t) : t ≠ Node.null := by
  cases ht with
  | deletable ht => exact ht.ne_null
  | turned ht =>
    cases ht
    exact nofun

theorem Passable.root (ht : Passable k₀ c h (node k v left right color n)) :
    Passable k c h (node k v left right color n) := by
  cases ht with
  | deletable ht => exact .deletable ht
  | turned ht =>
    cases ht with
    | mk hl hr => exact .turned (.mk hl hr)

theorem RightLeaning.hasKey (ht : RightLeaning k h t) : HasKey k t.entries := by
  cases ht with
  | mk hl hr => exact hasKey_cut.mpr (Or.inr (Or.inl rfl))

end Shape

/-! ### The descent -/

/-- `t'` is `t` with the entries `l` left. -/
structure Removed (c : Bool) (h : ℕ) (t : Node κ ν) (l : List (κ × ν)) (t' : Node κ ν) : Prop where
  repaired : Repaired c h t'
  entries_eq : t'.entries = l
  sized : t.Sized → t'.Sized

section Descent

variable {k : κ} {v : ν} {c c' color : Bool} {h h' n fuel : ℕ} {left right t t' : Node κ ν}
  {l : List (κ × ν)}

/-- The way back from the left. -/
theorem Removed.back_left {left' : Node κ ν} (hleft : Removed c' h' left l left')
    (hre : Rearranges t (node k v left right color n))
    (hbalance : (node k v left' right color n).balance = some t') (ht' : Repaired c h t') :
    Removed c h t (l ++ (k, v) :: right.entries) t' where
  repaired := ht'
  entries_eq := by rw [(balance_restores hbalance).entries_eq, entries, hleft.entries_eq]
  sized hs := by
    obtain ⟨hl, hr, -⟩ := hre.sized hs
    exact (balance_restores hbalance).sized ⟨hleft.sized hl, hr⟩

/-- The way back from the right, perhaps with another entry at the root. -/
theorem Removed.back_right {k' : κ} {v' : ν} {right' : Node κ ν}
    (hright : Removed c' h' right l right') (hre : Rearranges t (node k v left right color n))
    (hbalance : (node k' v' left right' color n).balance = some t') (ht' : Repaired c h t') :
    Removed c h t (left.entries ++ (k', v') :: l) t' where
  repaired := ht'
  entries_eq := by rw [(balance_restores hbalance).entries_eq, entries, hright.entries_eq]
  sized hs := by
    obtain ⟨hl, hr, -⟩ := hre.sized hs
    exact (balance_restores hbalance).sized ⟨hl, hright.sized hr⟩

/-- The last entry of a tree has gone. -/
theorem removed_leaf (ht : LeftLeaning true h (node k v Node.null Node.null color n)) :
    Removed true h (node k v Node.null Node.null color n) [] Node.null := by
  cases ht with
  | red hl hr => exact ⟨⟨false, hl, fun hc => absurd hc Bool.false_ne_true⟩, rfl, fun _ => trivial⟩

theorem Rearranges.count_left_le (hre : Rearranges t (node k v left right color n))
    (hf : t.count ≤ fuel + 1) : left.count ≤ fuel := by
  have := hre.count_eq
  rw [count] at this
  omega

theorem Rearranges.count_right_le (hre : Rearranges t (node k v left right color n))
    (hf : t.count ≤ fuel + 1) : right.count ≤ fuel := by
  have := hre.count_eq
  rw [count] at this
  omega

theorem Deletable.entries_ne_nil (ht : Deletable c h t) : t.entries ≠ [] := by
  cases t with
  | null => exact absurd rfl ht.ne_null
  | node => simp [entries]

theorem deleteMin_succ (hne : left ≠ Node.null) :
    (node k v left right color n).deleteMin (fuel + 1) =
      (node k v left right color n).prepareLeft.bind fun
        | null => none
        | node k v left right color n =>
          (left.deleteMin fuel).bind fun left' => (node k v left' right color n).balance := by
  cases left with
  | null => exact absurd rfl hne
  | node => rfl

theorem Deletable.deleteMin (ht : Deletable c h t) (hf : t.count ≤ fuel) :
    ∃ t', t.deleteMin fuel = some t' ∧ Removed c h t t.entries.tail t' := by
  induction fuel generalizing c h t with
  | zero =>
    cases t with
    | null => exact absurd rfl ht.ne_null
    | node => exact absurd hf (Nat.not_succ_le_zero _)
  | succ fuel ih =>
    cases t with
    | null => exact absurd rfl ht.ne_null
    | node k v left right color n =>
      by_cases hne : left = Node.null
      · subst hne
        cases ht with
        | black hl _ => cases hl
        | red ht =>
          obtain rfl := ht.right_eq_null
          exact ⟨Node.null, rfl, removed_leaf ht⟩
      · obtain ⟨t₁, hprepare, hready⟩ := ht.prepareLeft hne
        have hre := prepareLeft_rearranges hprepare
        rw [deleteMin_succ hne, hprepare, Option.bind_some]
        cases t₁ with
        | null => cases hready
        | node k₁ v₁ left₁ right₁ color₁ n₁ =>
          obtain ⟨c', h', hl, hfinish⟩ := hready.descend
          obtain ⟨left', hdelete, hleft⟩ := ih hl (hre.count_left_le hf)
          obtain ⟨t', hbalance, ht'⟩ := hfinish left' hleft.repaired
          refine ⟨t', by simp only [hdelete, Option.bind_some, hbalance], ?_⟩
          rw [← hre.entries_eq, entries, List.tail_append_of_ne_nil hl.entries_ne_nil]
          exact hleft.back_left hre hbalance ht'

theorem Passable.entries_ne_nil (ht : Passable k c h t) : t.entries ≠ [] := by
  cases t with
  | null => exact absurd rfl ht.ne_null
  | node => simp [entries]

theorem Passable.deleteMax (ht : Passable k c h t) (hf : t.count ≤ fuel) :
    ∃ t', t.deleteMax fuel = some t' ∧ Removed c h t t.entries.dropLast t' := by
  induction fuel generalizing k c h t with
  | zero =>
    cases t with
    | null => exact absurd rfl ht.ne_null
    | node => exact absurd hf (Nat.not_succ_le_zero _)
  | succ fuel ih =>
    cases t with
    | null => exact absurd rfl ht.ne_null
    | node k v left right color n =>
      obtain ⟨t₁, hlean, hleaned⟩ := ht.root.leanRight
      have hre₁ := leanRight_rearranges hlean
      rw [Node.deleteMax, hlean, Option.bind_some]
      cases t₁ with
      | null => cases hleaned
      | node k₁ v₁ left₁ right₁ color₁ n₁ =>
        cases right₁ with
        | null =>
          obtain ⟨rfl, rfl, hleaf⟩ := hleaned.leaf
          have hgone := removed_leaf hleaf
          refine ⟨Node.null, rfl, hgone.repaired, ?_, fun _ => trivial⟩
          rw [← hre₁.entries_eq]
          rfl
        | node rk rv rl rr rc rn =>
          obtain ⟨t₂, hprepare, hready⟩ := hleaned.prepareRight nofun
          have hre := hre₁.trans (prepareRight_rearranges hprepare)
          simp only [hprepare, Option.bind_some]
          cases t₂ with
          | null => cases hready
          | node k₂ v₂ left₂ right₂ color₂ n₂ =>
            obtain ⟨c', h', hr, hfinish⟩ := hready.descend
            obtain ⟨right', hdelete, hright⟩ := ih hr (hre.count_right_le hf)
            obtain ⟨t', hbalance, ht'⟩ := hfinish k₂ v₂ right' hright.repaired
            refine ⟨t', by simp only [hdelete, Option.bind_some, hbalance], ?_⟩
            have hlast : (node k₂ v₂ left₂ right₂ color₂ n₂).entries.dropLast =
                left₂.entries ++ (k₂, v₂) :: right₂.entries.dropLast := by
              rw [entries, List.dropLast_append_of_ne_nil (List.cons_ne_nil _ _),
                List.dropLast_cons_of_ne_nil hr.entries_ne_nil]
            rw [← hre.entries_eq, hlast]
            exact hright.back_right hre hbalance ht'

theorem min_eq_head? : t.min = t.entries.head? := by
  induction t with
  | null => rfl
  | node k v left right c n ihl ihr =>
    cases left with
    | null => rfl
    | node =>
      rw [Node.min, ihl]
      exact (List.head?_append_of_ne_nil _ (by simp [entries])).symm

theorem max_eq_getLast? : t.max = t.entries.getLast? := by
  induction t with
  | null => rfl
  | node k v left right c n ihl ihr =>
    cases right with
    | null => simp [Node.max, entries]
    | node =>
      rw [Node.max, ihr]
      simp [entries, List.getLast?_append, List.getLast?_cons]

end Descent

/-! ### Deletion of a key -/

section Delete

variable [LinearOrder κ] {key k k₀ : κ} {v : ν} {c color : Bool} {h n fuel : ℕ}
  {left right t : Node κ ν}

/-- The root moves to the right at most, so that a key to its left stays there. -/
theorem ReadyLeft.le_key (ht : ReadyLeft k₀ c h (node k v left right color n))
    (hs : SortedEntries (node k v left right color n).entries) : k₀ ≤ k := by
  cases ht with
  | red hl hr => exact le_rfl
  | black hl hr => exact le_rfl
  | borrowed hll hlr hr =>
    obtain ⟨-, -, hlow, -⟩ := sortedEntries_cut.mp hs
    exact (hlow (k₀, _) (List.mem_append_right _ List.mem_cons_self)).le

theorem Leaned.key_le (ht : Leaned k₀ c h (node k v left right color n))
    (hs : SortedEntries (node k v left right color n).entries) : k ≤ k₀ := by
  cases ht with
  | red hl hr => exact le_rfl
  | black hl hr => exact le_rfl
  | turned hl hrl hrr =>
    obtain ⟨-, -, -, hhigh⟩ := sortedEntries_cut.mp hs
    exact (hhigh (k₀, _) (List.mem_append_right _ List.mem_cons_self)).le

theorem ReadyRight.key_le (ht : ReadyRight k₀ c h (node k v left right color n))
    (hs : SortedEntries (node k v left right color n).entries) : k ≤ k₀ := by
  cases ht with
  | red hl hr => exact le_rfl
  | black hl hr => exact le_rfl
  | carried hl hr =>
    obtain ⟨-, -, -, hhigh⟩ := sortedEntries_cut.mp hs
    obtain ⟨e, he, rfl⟩ := hr.hasKey
    exact (hhigh e he).le

/-- The entry to be removed is at the root: the next one takes its place. -/
theorem ReadyRight.delete_root (ht : ReadyRight k₀ c h (node k v left right color n))
    (hre : Rearranges t (node k v left right color n)) (hk₀ : k₀ ≤ k)
    (hs : SortedEntries t.entries) (hf : t.count ≤ fuel + 1) :
    ∃ t', (right.min.bind fun x => (right.deleteMin fuel).bind fun right' =>
        (node x.1 x.2 left right' color n).balance) = some t' ∧
      Removed c h t (eraseEntry k t.entries) t' := by
  obtain ⟨c', h', hr, hfinish⟩ := ht.descend
  rw [← hre.entries_eq] at hs ⊢
  have hr : Deletable c' h' right := by
    cases hr with
    | deletable hr => exact hr
    | turned hr =>
      -- the node carried over the root has a larger key than the root
      obtain ⟨-, -, -, hhigh⟩ := sortedEntries_cut.mp hs
      obtain ⟨e, he, rfl⟩ := hr.hasKey
      exact absurd (hhigh e he) hk₀.not_gt
  obtain ⟨right', hdelete, hright⟩ := hr.deleteMin (hre.count_right_le hf)
  obtain ⟨x, xs, hxs⟩ := List.exists_cons_of_ne_nil hr.entries_ne_nil
  obtain ⟨t', hbalance, ht'⟩ := hfinish x.1 x.2 right' hright.repaired
  refine ⟨t', by simp [min_eq_head?, hxs, hdelete, hbalance], ?_⟩
  have herase : eraseEntry k (node k v left right color n).entries =
      left.entries ++ x :: right.entries.tail := by
    rw [entries, eraseEntry_mid hs, hxs, List.tail_cons]
  rw [herase]
  exact hright.back_right hre hbalance ht'

/-- The half of `delete` behind the rotation, if it can be trusted with the subtrees. -/
theorem Leaned.deleteRight {again : Node κ ν → Option (Node κ ν)}
    (ht : Leaned k₀ c h (node k v left right color n))
    (hre : Rearranges t (node k v left right color n)) (hk : k ≤ key)
    (hs : SortedEntries t.entries) (hkey : HasKey key t.entries) (hf : t.count ≤ fuel + 1)
    (hagain : ∀ {k c h} {u : Node κ ν}, Passable k c h u → k ≤ key → u.count ≤ fuel →
      SortedEntries u.entries → HasKey key u.entries →
      ∃ u', again u = some u' ∧ Removed c h u (eraseEntry key u.entries) u') :
    ∃ t', Node.deleteRight key fuel again (node k v left right color n) = some t' ∧
      Removed c h t (eraseEntry key t.entries) t' := by
  rw [Node.deleteRight]
  by_cases hnull : right = Node.null
  · subst hnull
    obtain ⟨rfl, rfl, hleaf⟩ := ht.leaf
    obtain rfl : key = k := by
      rw [← hre.entries_eq] at hkey
      obtain ⟨e, he, rfl⟩ := hkey
      rw [List.mem_singleton.mp he]
    refine ⟨Node.null, if_pos ⟨rfl, rfl⟩, (removed_leaf hleaf).repaired, ?_, fun _ => trivial⟩
    rw [← hre.entries_eq]
    simp [entries, eraseEntry]
  · obtain ⟨t₁, hprepare, hready⟩ := ht.prepareRight hnull
    have hre₁ := hre.trans (prepareRight_rearranges hprepare)
    have hcond : ¬ (key = k ∧ right.isNull = true) := by
      cases right with
      | null => exact absurd rfl hnull
      | node => exact fun hc => Bool.false_ne_true hc.2
    rw [if_neg hcond, hprepare, Option.bind_some]
    cases t₁ with
    | null => cases hready
    | node k₁ v₁ left₁ right₁ color₁ n₁ =>
      have hs₁ : SortedEntries (node k₁ v₁ left₁ right₁ color₁ n₁).entries :=
        hre₁.entries_eq ▸ hs
      dsimp only
      by_cases hkk₁ : key = k₁
      · subst hkk₁
        rw [if_pos rfl]
        exact hready.delete_root hre₁ hk hs hf
      · rw [if_neg hkk₁]
        have hlt : k₁ < key := lt_of_le_of_ne ((hready.key_le hs₁).trans hk) (Ne.symm hkk₁)
        obtain ⟨c', h', hr, hfinish⟩ := hready.descend
        obtain ⟨-, hsr, -, -⟩ := sortedEntries_cut.mp hs₁
        rw [← hre₁.entries_eq, entries, hasKey_right hs₁ hlt] at hkey
        obtain ⟨right', hdelete, hright⟩ := hagain hr hk (hre₁.count_right_le hf) hsr hkey
        obtain ⟨t', hbalance, ht'⟩ := hfinish k₁ v₁ right' hright.repaired
        refine ⟨t', by rw [hdelete, Option.bind_some, hbalance], ?_⟩
        rw [← hre₁.entries_eq, entries, eraseEntry_right hs₁ hlt]
        exact hright.back_right hre₁ hbalance ht'

/-- `delete` takes a key out of a tree that has it, and dereferences no null pointer. -/
theorem Passable.delete (ht : Passable k₀ c h t) (hk₀ : k₀ ≤ key) (hf : t.count ≤ fuel)
    (hs : SortedEntries t.entries) (hkey : HasKey key t.entries) :
    ∃ t', t.delete key fuel = some t' ∧ Removed c h t (eraseEntry key t.entries) t' := by
  induction fuel generalizing k₀ c h t with
  | zero =>
    cases t with
    | null => exact absurd rfl ht.ne_null
    | node => exact absurd hf (Nat.not_succ_le_zero _)
  | succ fuel ih =>
    cases t with
    | null => exact absurd rfl ht.ne_null
    | node k v left right color n =>
      rw [Node.delete]
      by_cases hlt : key < k
      · rw [if_pos hlt]
        have ht : Deletable c h (node k v left right color n) := by
          cases ht with
          | deletable ht => exact ht
          | turned ht =>
            cases ht
            exact absurd hlt hk₀.not_gt
        have hne : left ≠ Node.null := by
          rintro rfl
          obtain ⟨e, he, -⟩ := (hasKey_left hs hlt).mp hkey
          exact List.not_mem_nil he
        obtain ⟨t₁, hprepare, hready⟩ := ht.prepareLeft hne
        have hre := prepareLeft_rearranges hprepare
        rw [hprepare, Option.bind_some]
        cases t₁ with
        | null => cases hready
        | node k₁ v₁ left₁ right₁ color₁ n₁ =>
          rw [← hre.entries_eq] at hs hkey ⊢
          have hlt₁ : key < k₁ := hlt.trans_le (hready.le_key hs)
          obtain ⟨c', h', hl, hfinish⟩ := hready.descend
          obtain ⟨hsl, -, -, -⟩ := sortedEntries_cut.mp hs
          obtain ⟨left', hdelete, hleft⟩ := ih (.deletable hl) le_rfl (hre.count_left_le hf) hsl
            ((hasKey_left hs hlt₁).mp hkey)
          obtain ⟨t', hbalance, ht'⟩ := hfinish left' hleft.repaired
          refine ⟨t', by simp only [hdelete, Option.bind_some, hbalance], ?_⟩
          rw [entries, eraseEntry_left hs hlt₁]
          exact hleft.back_left hre hbalance ht'
      · obtain ⟨t₁, hlean, hleaned⟩ := ht.root.leanRight
        have hre := leanRight_rearranges hlean
        rw [if_neg hlt, hlean, Option.bind_some]
        cases t₁ with
        | null => cases hleaned
        | node k₁ v₁ left₁ right₁ color₁ n₁ =>
          have hk₁ : k₁ ≤ k := hleaned.key_le (hre.entries_eq ▸ hs)
          exact hleaned.deleteRight hre (hk₁.trans (not_lt.mp hlt)) hs hkey hf ih

end Delete

end SystemDev.RedBlack.Node
