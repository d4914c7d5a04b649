import Mathlib.Algebra.Group.Nat.Defs
import SystemDev.RedBlack.Refinement

/-!
# The integrity check

`check` tests the order of the keys, the counts, the ranks and the two properties of a red-black
tree. It passes exactly the tables whose entries are sorted, whose counts are right and which are
left-leaning red-black trees up to the colour of the root; the test of the ranks follows from the
others. Every table a program can make passes it, and is not deeper than such a tree can be.
-/

namespace SystemDev.RedBlack

open Library

namespace Node

variable {κ ν : Type} {c : Bool} {h : ℕ} {t : Node κ ν}

theorem isSizeConsistent_iff : t.isSizeConsistent = true ↔ t.Sized := by
  induction t with
  | null => exact ⟨fun _ => trivial, fun _ => rfl⟩
  | node k v left right c n ihl ihr =>
    rw [isSizeConsistent]
    split
    · rename_i hn
      refine ⟨fun h => absurd h Bool.false_ne_true, fun h => absurd ?_ hn⟩
      rw [h.1.size_eq, h.2.1.size_eq]
      exact h.2.2
    · rename_i hn
      rw [Bool.and_eq_true, ihl, ihr]
      refine ⟨fun h => ⟨h.1, h.2, ?_⟩, fun h => ⟨h.1, h.2.1⟩⟩
      rw [← h.1.size_eq, ← h.2.size_eq]
      exact not_not.mp hn

theorem LeftLeaning.blackLinks_eq (ht : LeftLeaning c h t) : t.blackLinks = h := by
  induction ht with
  | null => rfl
  | black hl hr ihl ihr =>
    rw [blackLinks, ihl, if_neg Bool.false_ne_true]
    exact Nat.add_comm 1 _
  | red hl hr ihl ihr =>
    rw [blackLinks, ihl, if_pos rfl]
    exact Nat.zero_add _

/-- Below the root, `is23` and `isBalanced` together pass left-leaning red-black trees. -/
theorem leaning_iff (b : ℤ) : t.is23 false = true ∧ t.isBalanced b = true ↔
    ∃ h : ℕ, b = h ∧ LeftLeaning t.isRed h t := by
  induction t generalizing b with
  | null =>
    constructor
    · rintro ⟨-, hb⟩
      exact ⟨0, of_decide_eq_true hb, .null⟩
    · rintro ⟨h, rfl, ⟨⟩⟩
      exact ⟨rfl, rfl⟩
  | node k v left right c n ihl ihr =>
    rw [is23, isBalanced, isRed_node]
    constructor
    · rintro ⟨h23, hb⟩
      split at h23
      · exact absurd h23 Bool.false_ne_true
      rename_i hright
      split at h23
      · exact absurd h23 Bool.false_ne_true
      rename_i hleft
      rw [Bool.and_eq_true] at h23 hb
      obtain ⟨h, hh, hl⟩ := (ihl _).mp ⟨h23.1, hb.1⟩
      obtain ⟨h', hh', hr⟩ := (ihr _).mp ⟨h23.2, hb.2⟩
      obtain rfl : h' = h := by exact_mod_cast hh'.symm.trans hh
      rw [Bool.not_eq_true] at hright
      rw [hright] at hr
      cases c with
      | true =>
        have hleft : left.isRed = false := by simpa using hleft
        rw [hleft] at hl
        exact ⟨h', hh, .red hl hr⟩
      | false =>
        refine ⟨h' + 1, ?_, .black hl hr⟩
        rw [if_neg Bool.false_ne_true] at hh
        omega
    · rintro ⟨h, rfl, ht⟩
      cases ht with
      | @black c h _ _ _ _ _ hl hr =>
        have hb : ((h + 1 : ℕ) : ℤ) - 1 = h := by omega
        obtain ⟨hl23, hlb⟩ := (ihl h).mpr ⟨h, rfl, hl.isRed_eq.symm ▸ hl⟩
        obtain ⟨hr23, hrb⟩ := (ihr h).mpr ⟨h, rfl, hr.isRed_eq.symm ▸ hr⟩
        simp [hr.isRed_eq, hl23, hr23, hlb, hrb]
      | red hl hr =>
        obtain ⟨hl23, hlb⟩ := (ihl h).mpr ⟨h, rfl, hl.isRed_eq.symm ▸ hl⟩
        obtain ⟨hr23, hrb⟩ := (ihr h).mpr ⟨h, rfl, hr.isRed_eq.symm ▸ hr⟩
        simp [hr.isRed_eq, hl.isRed_eq, hl23, hr23, hlb, hrb]

/-! ### Depth -/

/-- Red links at most double the way to the bottom. -/
theorem LeftLeaning.height_lt (ht : LeftLeaning c h t) :
    t.height < 2 * h + if c then 1 else 0 := by
  induction ht with
  | null => exact (by decide : (-1 : ℤ) < 2 * 0 + 0)
  | @black c _ _ _ _ _ _ hl hr ihl ihr =>
    have : (if c then (1 : ℤ) else 0) ≤ 1 := by split <;> decide
    rw [height]
    rw [if_neg Bool.false_ne_true] at ihr ⊢
    push_cast
    omega
  | red hl hr ihl ihr =>
    rw [height, if_pos rfl]
    rw [if_neg Bool.false_ne_true] at ihl ihr
    omega

/-- The black links alone make a full tree. -/
theorem LeftLeaning.two_pow_le (ht : LeftLeaning c h t) : 2 ^ h ≤ t.count + 1 := by
  induction ht with
  | null => exact Nat.le_refl 1
  | black hl hr ihl ihr =>
    rw [count, pow_succ]
    omega
  | red hl hr ihl ihr =>
    rw [count]
    omega

/-! ### Order -/

variable [LinearOrder κ]

theorem isBST_iff (lo hi : Option κ) : t.isBST lo hi = true ↔
    SortedEntries t.entries ∧ (∀ a ∈ lo, ∀ k ∈ t.inOrder, a < k) ∧
      ∀ b ∈ hi, ∀ k ∈ t.inOrder, k < b := by
  induction t generalizing lo hi with
  | null => simp [isBST, entries, inOrder, SortedEntries]
  | node k v left right c n ihl ihr =>
    have hlo : lo.any (k ≤ ·) = false ↔ ∀ a ∈ lo, a < k := by
      cases lo <;> simp
    have hhi : hi.any (· ≤ k) = false ↔ ∀ b ∈ hi, k < b := by
      cases hi <;> simp
    have hbst : (node k v left right c n).isBST lo hi = true ↔ lo.any (k ≤ ·) = false ∧
        hi.any (· ≤ k) = false ∧ left.isBST lo (some k) = true ∧
          right.isBST (some k) hi = true := by
      rw [isBST]
      cases lo.any (k ≤ ·) <;> cases hi.any (· ≤ k) <;> simp
    rw [hbst, hlo, hhi, ihl, ihr, inOrder_node, entries, sortedEntries_cut]
    simp only [inOrder, List.mem_append, List.mem_cons, List.mem_map, Option.mem_some_iff]
    constructor
    · rintro ⟨hlo, hhi, ⟨hl, hlol, hlk⟩, hr, hrk, hrhi⟩
      refine ⟨⟨hl, hr, fun e he => hlk k rfl e.1 ⟨e, he, rfl⟩,
        fun e he => hrk k rfl e.1 ⟨e, he, rfl⟩⟩, ?_, ?_⟩
      · rintro a ha b (hb | rfl | ⟨e, he, rfl⟩)
        · exact hlol a ha b hb
        · exact hlo a ha
        · exact (hlo a ha).trans (hrk k rfl e.1 ⟨e, he, rfl⟩)
      · rintro b hb a (⟨e, he, rfl⟩ | rfl | ha)
        · exact (hlk k rfl e.1 ⟨e, he, rfl⟩).trans (hhi b hb)
        · exact hhi b hb
        · exact hrhi b hb a ha
    · rintro ⟨⟨hl, hr, hlk, hrk⟩, hlo, hhi⟩
      refine ⟨fun a ha => hlo a ha k (Or.inr (Or.inl rfl)),
        fun b hb => hhi b hb k (Or.inr (Or.inl rfl)),
        ⟨hl, fun a ha b hb => hlo a ha b (Or.inl hb), ?_⟩, hr, ?_,
        fun b hb a ha => hhi b hb a (Or.inr (Or.inr ha))⟩
      · rintro _ rfl _ ⟨e, he, rfl⟩
        exact hlk e he
      · rintro _ rfl _ ⟨e, he, rfl⟩
        exact hrk e he

end Node

namespace RedBlackBST

open Node

section Check

variable {κ ν : Type} {t : RedBlackBST κ ν}

/-- At the root, where the colour is not looked at. -/
theorem leaning_root_iff : t.root.is23 true = true ∧ t.root.isBalanced t.root.blackLinks = true ↔
    ∃ h, LeftLeaning false h (blackenRoot t.root) := by
  obtain ⟨root⟩ := t
  cases root with
  | null => exact ⟨fun _ => ⟨0, .null⟩, fun _ => ⟨rfl, rfl⟩⟩
  | node k v left right c n =>
    have hlinks : (if c then ((node k v left right c n).blackLinks : ℤ)
        else (node k v left right c n).blackLinks - 1) = left.blackLinks := by
      rw [blackLinks]
      cases c with
      | true => simp
      | false =>
        simp only [Bool.false_eq_true, if_false]
        omega
    have hroot : (node k v left right c n).is23 true = true ∧
        (node k v left right c n).isBalanced (node k v left right c n).blackLinks = true ↔
        right.isRed = false ∧ (left.is23 false = true ∧
          left.isBalanced left.blackLinks = true) ∧ right.is23 false = true ∧
            right.isBalanced left.blackLinks = true := by
      rw [is23, isBalanced, hlinks]
      cases right.isRed with
      | true => simp
      | false =>
        simp only [Bool.false_eq_true, if_false, Bool.not_true, Bool.false_and, Bool.and_eq_true,
          true_and]
        exact and_and_and_comm
    rw [hroot, leaning_iff, leaning_iff]
    constructor
    · rintro ⟨hright, ⟨h, hh, hl⟩, h', hh', hr⟩
      obtain rfl : h' = h := by exact_mod_cast hh'.symm.trans hh
      exact ⟨h' + 1, .black hl (hright ▸ hr)⟩
    · rintro ⟨h, ht⟩
      cases ht with
      | black hl hr =>
        exact ⟨hr.isRed_eq, ⟨_, congrArg _ hl.blackLinks_eq, hl.isRed_eq.symm ▸ hl⟩, _,
          congrArg _ hl.blackLinks_eq, hr.isRed_eq.symm ▸ hr⟩

theorem allM_eq_true {α : Type} {f : α → Except Thrown Bool} {l : List α}
    (h : ∀ a ∈ l, f a = .ok true) : l.allM f = .ok true := by
  induction l with
  | nil => rfl
  | cons a l ih =>
    rw [List.allM, h a List.mem_cons_self, ok_bind]
    exact ih fun b hb => h b (List.mem_cons_of_mem _ hb)

variable [LinearOrder κ]

/-- The ranks of sorted keys are their positions. -/
theorem isRankConsistent_eq (hs : SortedEntries t.root.entries) (hn : t.root.Sized) :
    t.isRankConsistent = .ok true := by
  have hsize : t.size = t.root.inOrder.length := by
    rw [size, hn.size_eq, length_inOrder]
  have hrank (i : ℕ) (hi : i < t.root.inOrder.length) :
      t.rank (some t.root.inOrder[i]) = .ok i := by
    rw [rank_eq hs hn]
    exact congrArg Except.ok (countP_lt_getElem hs.keys hi)
  have hselect (i : ℕ) (hi : i < t.root.inOrder.length) :
      t.select i = .ok t.root.inOrder[i] := by
    rw [select, if_neg (by omega), Node.select_eq hn, Int.toNat_natCast,
      List.getElem?_eq_getElem hi]
    rfl
  rw [isRankConsistent, allM_eq_true, ok_bind]
  · simp only [Bool.not_true, Bool.false_eq_true, if_false, keys_eq hs, ok_bind]
    refine allM_eq_true fun k hk => ?_
    obtain ⟨i, hi, rfl⟩ := List.mem_iff_getElem.mp hk
    rw [hrank i hi, ok_bind, hselect i hi, ok_bind]
    simp
  · intro i hi
    have hi : i < t.root.inOrder.length := hsize ▸ List.mem_range.mp hi
    rw [hselect i hi, ok_bind, hrank i hi, ok_bind]
    simp

/-- What `check` passes. -/
structure Sound (t : RedBlackBST κ ν) : Prop where
  leaning : ∃ h, LeftLeaning false h (blackenRoot t.root)
  sized : t.root.Sized
  sorted : SortedEntries t.root.entries

theorem Valid.sound (ht : Valid t) : Sound t := by
  obtain ⟨h, hroot⟩ := ht.leaning
  exact ⟨blackenRoot_leaning hroot, ht.sized, ht.sorted⟩

theorem Sound.check (ht : Sound t) : t.check = .ok true := by
  obtain ⟨h23, hbalanced⟩ := leaning_root_iff.mpr ht.leaning
  have hbst : t.root.isBST none none = true := (isBST_iff none none).mpr ⟨ht.sorted, nofun, nofun⟩
  rw [RedBlackBST.check, isRankConsistent_eq ht.sorted ht.sized, ok_bind, hbst,
    isSizeConsistent_iff.mpr ht.sized, h23, hbalanced]
  rfl

/-- `check` returns true for the sound tables and for no others. -/
theorem check_eq_true_iff (t : RedBlackBST κ ν) : t.check = .ok true ↔ Sound t := by
  constructor
  · intro hcheck
    -- the test of the ranks may throw, but then `check` does not return
    cases hrank : t.isRankConsistent with
    | error e =>
      rw [check, hrank] at hcheck
      cases hcheck
    | ok ranks =>
      rw [check, hrank, ok_bind, pure_eq_ok, Except.ok.injEq] at hcheck
      simp only [Bool.and_eq_true] at hcheck
      obtain ⟨⟨⟨⟨hbst, hsize⟩, -⟩, h23⟩, hbalanced⟩ := hcheck
      exact ⟨leaning_root_iff.mp ⟨h23, hbalanced⟩, isSizeConsistent_iff.mp hsize,
        ((isBST_iff none none).mp hbst).1⟩
  · exact Sound.check

/-- Whatever is called, with fewer than `2 ^ 31` calls of `put`, the table passes its check
afterwards and no count has overflowed. -/
theorem run_check (calls : List (Call κ ν)) (hputs : calls.countP Call.isPut < 2 ^ 31) :
    (run calls).check = .ok true ∧ (run calls).root.CountsFit :=
  ⟨(valid_run calls).sound.check, countsFit_run calls hputs⟩

theorem run_check_someCalls : (run someCalls).check = .ok true ∧ (run someCalls).root.CountsFit :=
  run_check someCalls (by decide)

/-- A search never passes more than twice as many nodes as a full tree with the entries of the table
is deep. -/
theorem run_height_le (calls : List (Call κ ν)) :
    (run calls).height + 1 ≤ 2 * ((run calls).size + 1).log2 := by
  have ht := valid_run calls
  obtain ⟨h, hroot⟩ := ht.leaning
  have hheight := hroot.height_lt
  rw [if_neg Bool.false_ne_true] at hheight
  have hcount := hroot.two_pow_le
  rw [← ht.sized.size_eq] at hcount
  have hlog : h ≤ ((run calls).size + 1).log2 :=
    (Nat.le_log2 (Nat.succ_ne_zero _)).mpr hcount
  rw [height]
  omega

end Check

end RedBlackBST

end SystemDev.RedBlack
