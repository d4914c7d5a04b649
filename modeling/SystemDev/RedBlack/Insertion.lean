import SystemDev.RedBlack.Entries

/-!
# Insertion

The trees between two calls are left-leaning red-black trees: no red link leads to the right, no two
follow each other, and every path to the bottom has as many black links as any other. Putting a key
into such a tree with a black root gives such a tree again; below a red root it may leave two red
links in a row on the left, which the black node above takes apart.
-/

namespace SystemDev.RedBlack.Node

open Library

variable {κ ν : Type}

/-- The tree is a left-leaning red-black tree with a root of the given colour, and every path from
the root to the bottom has that many black links. -/
inductive LeftLeaning : Bool → ℕ → Node κ ν → Prop
  | null : LeftLeaning false 0 null
  | black {c : Bool} {h : ℕ} {k : κ} {v : ν} {left right : Node κ ν} {n : ℕ}
      (hl : LeftLeaning c h left) (hr : LeftLeaning false h right) :
      LeftLeaning false (h + 1) (node k v left right false n)
  | red {h : ℕ} {k : κ} {v : ν} {left right : Node κ ν} {n : ℕ}
      (hl : LeftLeaning false h left) (hr : LeftLeaning false h right) :
      LeftLeaning true h (node k v left right true n)

/-- What `put` makes of a tree with a root of the given colour. -/
inductive Grown : Bool → ℕ → Node κ ν → Prop
  | black {c : Bool} {h : ℕ} {t : Node κ ν} (ht : LeftLeaning c h t) : Grown false h t
  | red {c : Bool} {h : ℕ} {k : κ} {v : ν} {left right : Node κ ν} {n : ℕ}
      (hl : LeftLeaning c h left) (hr : LeftLeaning false h right) :
      Grown true h (node k v left right true n)

section Shape

variable {k : κ} {v : ν} {c : Bool} {h n : ℕ} {left right t : Node κ ν}

theorem LeftLeaning.isRed_eq (ht : LeftLeaning c h t) : t.isRed = c := by
  cases ht <;> rfl

/-- There are no two red links in a row. -/
theorem LeftLeaning.isRedLeft_eq (ht : LeftLeaning true h t) : t.isRedLeft = some false := by
  cases ht with
  | red hl hr => exact congrArg some hl.isRed_eq

/-- A red node in a left-leaning tree. -/
theorem LeftLeaning.exists_red (ht : LeftLeaning true h t) :
    ∃ k v left right n, t = node k v left right true n ∧ LeftLeaning false h left ∧
      LeftLeaning false h right := by
  cases ht with
  | red hl hr => exact ⟨_, _, _, _, _, rfl, hl, hr⟩

/-! ### The repairs -/

/-- Nothing is to be done where the right link is black and there are no two red links. -/
theorem splitFour_eq (hr : right.isRed = false)
    (hl : (left.isRed && left.isRedLeft.getD false) = false) :
    (node k v left right c n).splitFour =
      some (node k v left right c (left.size + right.size + 1)) := by
  simp [splitFour, hl, hr, setSize]

/-- Two red children give their colour to the root. -/
theorem splitFour_flip (hl : LeftLeaning true h left) (hr : LeftLeaning true h right) :
    ∃ t', (node k v left right false n).splitFour = some t' ∧ LeftLeaning true (h + 1) t' := by
  obtain ⟨_, _, _, _, _, rfl, hll, hlr⟩ := hl.exists_red
  obtain ⟨_, _, _, _, _, rfl, hrl, hrr⟩ := hr.exists_red
  simp [splitFour, hll.isRed_eq, flipColors, setSize]
  exact .red (.black hll hlr) (.black hrl hrr)

/-- Two red links in a row on the left are taken apart. -/
theorem splitFour_rotate {k' : κ} {v' : ν} {n' : ℕ} {leftLeft leftRight : Node κ ν}
    (hll : LeftLeaning true h leftLeft) (hlr : LeftLeaning false h leftRight)
    (hr : LeftLeaning false h right) :
    ∃ t', (node k v (node k' v' leftLeft leftRight true n') right false n).splitFour = some t' ∧
      LeftLeaning true (h + 1) t' := by
  obtain ⟨_, _, _, _, _, rfl, hlll, hllr⟩ := hll.exists_red
  simp [splitFour, rotateRight, flipColors, setSize]
  exact .red (.black hlll hllr) (.black hlr hr)

theorem splitFour_black (hl : LeftLeaning c h left) (hr : LeftLeaning false h right) :
    ∃ t', (node k v left right false n).splitFour = some t' ∧ LeftLeaning false (h + 1) t' := by
  refine ⟨_, splitFour_eq hr.isRed_eq ?_, .black hl hr⟩
  cases c with
  | false => rw [hl.isRed_eq, Bool.false_and]
  | true => rw [hl.isRedLeft_eq, Option.getD_some, Bool.and_false]

theorem splitFour_red (hl : LeftLeaning c h left) (hr : LeftLeaning false h right) :
    ∃ t', (node k v left right true n).splitFour = some t' ∧ Grown true h t' := by
  refine ⟨_, splitFour_eq hr.isRed_eq ?_, .red hl hr⟩
  cases c with
  | false => rw [hl.isRed_eq, Bool.false_and]
  | true => rw [hl.isRedLeft_eq, Option.getD_some, Bool.and_false]

theorem fixUp_eq (hr : (right.isRed && !left.isRed) = false) :
    (node k v left right c n).fixUp = (node k v left right c n).splitFour := by
  simp only [fixUp, hr, Bool.false_eq_true, if_false, Option.bind_some]

/-- A red link to the right is turned to the left. -/
theorem fixUp_rotate {k' : κ} {v' : ν} {n' : ℕ} {rightLeft rightRight : Node κ ν}
    (hl : left.isRed = false) :
    (node k v left (node k' v' rightLeft rightRight true n') c n).fixUp =
      (node k' v' (node k v left rightLeft true (left.size + rightLeft.size + 1))
        rightRight c n).splitFour := by
  simp [fixUp, hl, rotateLeft]

theorem fixUp_red {cl cr : Bool} (hl : LeftLeaning cl h left) (hr : LeftLeaning cr h right)
    (hc : (cl && cr) = false) :
    ∃ t', (node k v left right true n).fixUp = some t' ∧ Grown true h t' := by
  cases cr with
  | false =>
    rw [fixUp_eq (by rw [hr.isRed_eq, Bool.false_and])]
    exact splitFour_red hl hr
  | true =>
    rw [Bool.and_true] at hc
    subst hc
    obtain ⟨_, _, _, _, _, rfl, hrl, hrr⟩ := hr.exists_red
    rw [fixUp_rotate hl.isRed_eq]
    exact splitFour_red (.red hl hrl) hrr

theorem fixUp_black {cl cr : Bool} (hl : LeftLeaning cl h left) (hr : LeftLeaning cr h right) :
    ∃ t', (node k v left right false n).fixUp = some t' ∧
      LeftLeaning (cl && cr) (h + 1) t' := by
  cases cr with
  | false =>
    rw [fixUp_eq (by rw [hr.isRed_eq, Bool.false_and]), Bool.and_false]
    exact splitFour_black hl hr
  | true =>
    cases cl with
    | false =>
      obtain ⟨_, _, _, _, _, rfl, hrl, hrr⟩ := hr.exists_red
      rw [fixUp_rotate hl.isRed_eq]
      exact splitFour_black (.red hl hrl) hrr
    | true =>
      rw [fixUp_eq (by rw [hl.isRed_eq, Bool.not_true, Bool.and_false])]
      exact splitFour_flip hl hr

/-- Below a black node, what is left of a red one is repaired. -/
theorem fixUp_grown (hl : Grown true h left) (hr : LeftLeaning false h right) :
    ∃ t', (node k v left right false n).fixUp = some t' ∧ Grown false (h + 1) t' := by
  cases hl with
  | @red c _ _ _ _ _ _ hll hlr =>
    cases c with
    | false =>
      obtain ⟨t', hput, ht'⟩ := fixUp_black (.red hll hlr) hr
      exact ⟨t', hput, .black ht'⟩
    | true =>
      rw [fixUp_eq (by rw [hr.isRed_eq, Bool.false_and])]
      obtain ⟨t', hput, ht'⟩ := splitFour_rotate hll hlr hr
      exact ⟨t', hput, .black ht'⟩

end Shape

section Put

variable [LinearOrder κ] {key k : κ} {val v : ν} {c : Bool} {h n : ℕ} {t t' left right : Node κ ν}

/-- The step of `put` at a red node. -/
theorem put_red_step (hl : LeftLeaning false h left) (hr : LeftLeaning false h right)
    (ihl : ∃ t', left.put key val = some t' ∧ Grown false h t')
    (ihr : ∃ t', right.put key val = some t' ∧ Grown false h t') :
    ∃ t', (node k v left right true n).put key val = some t' ∧ Grown true h t' := by
  obtain ⟨left', hputl, ⟨hleft'⟩⟩ := ihl
  obtain ⟨right', hputr, ⟨hright'⟩⟩ := ihr
  rw [put]
  split
  · rw [hputl, Option.bind_some]
    exact fixUp_red hleft' hr (Bool.and_false _)
  · split
    · rw [hputr, Option.bind_some]
      exact fixUp_red hl hright' (Bool.false_and _)
    · exact fixUp_red hl hr rfl

/-- The step of `put` at a black node. -/
theorem put_black_step (hl : LeftLeaning c h left) (hr : LeftLeaning false h right)
    (ihl : ∃ t', left.put key val = some t' ∧ Grown c h t')
    (ihr : ∃ t', right.put key val = some t' ∧ Grown false h t') :
    ∃ t', (node k v left right false n).put key val = some t' ∧ Grown false (h + 1) t' := by
  obtain ⟨left', hputl, hleft'⟩ := ihl
  obtain ⟨right', hputr, ⟨hright'⟩⟩ := ihr
  rw [put]
  split
  · rw [hputl, Option.bind_some]
    cases c with
    | true => exact fixUp_grown hleft' hr
    | false =>
      obtain ⟨hleft'⟩ := hleft'
      obtain ⟨t', hfix, ht'⟩ := fixUp_black hleft' hr
      exact ⟨t', hfix, .black ht'⟩
  · split
    · rw [hputr, Option.bind_some]
      obtain ⟨t', hfix, ht'⟩ := fixUp_black hl hright'
      exact ⟨t', hfix, .black ht'⟩
    · obtain ⟨t', hfix, ht'⟩ := fixUp_black hl hr
      exact ⟨t', hfix, .black ht'⟩

/-- `put` dereferences no null pointer in a left-leaning tree, and keeps its black height. -/
theorem LeftLeaning.put (ht : LeftLeaning c h t) (key : κ) (val : ν) :
    ∃ t', t.put key val = some t' ∧ Grown c h t' := by
  induction ht with
  | null => exact ⟨_, rfl, .black (.red .null .null)⟩
  | black hl hr ihl ihr => exact put_black_step hl hr ihl ihr
  | red hl hr ihl ihr => exact put_red_step hl hr ihl ihr

/-! ### The entries -/

theorem put_entries (h : t.put key val = some t') (hs : SortedEntries t.entries) :
    t'.entries = insertEntry key val t.entries := by
  induction t generalizing t' with
  | null =>
    cases h
    rfl
  | node k v left right c n ihl ihr =>
    obtain ⟨hleft, hright, -, -⟩ := sortedEntries_cut.mp hs
    rw [Node.put] at h
    split at h
    · rename_i hkey
      obtain ⟨left', hput, h⟩ := Option.bind_eq_some_iff.mp h
      rw [(fixUp_restores h).entries_eq, entries, entries, insertEntry_left hkey, ihl hput hleft]
    · rename_i hkey
      split at h
      · rename_i hkey
        obtain ⟨right', hput, h⟩ := Option.bind_eq_some_iff.mp h
        rw [(fixUp_restores h).entries_eq, entries, entries, insertEntry_right hs hkey,
          ihr hput hright]
      · rename_i hkey'
        obtain rfl : key = k := le_antisymm (not_lt.mp hkey') (not_lt.mp hkey)
        rw [(fixUp_restores h).entries_eq, entries, entries, insertEntry_mid hs]

theorem put_sized (h : t.put key val = some t') (hs : t.Sized) : t'.Sized := by
  induction t generalizing t' with
  | null =>
    cases h
    exact ⟨trivial, trivial, rfl⟩
  | node k v left right c n ihl ihr =>
    rw [Node.put] at h
    split at h
    · obtain ⟨left', hput, h⟩ := Option.bind_eq_some_iff.mp h
      exact (fixUp_restores h).sized ⟨ihl hput hs.1, hs.2.1⟩
    · split at h
      · obtain ⟨right', hput, h⟩ := Option.bind_eq_some_iff.mp h
        exact (fixUp_restores h).sized ⟨hs.1, ihr hput hs.2.1⟩
      · exact (fixUp_restores h).sized hs.below

end Put

end SystemDev.RedBlack.Node
