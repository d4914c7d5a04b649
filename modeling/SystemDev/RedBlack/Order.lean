import SystemDev.RedBlack.Entries

/-!
# Searching

In a tree whose entries are sorted, every search reads the answer off the list of entries: the
subtree it does not enter has no part in it. Ranks and selections also take the counts for granted.
-/

namespace SystemDev.RedBlack.Node

open Library

variable {κ ν : Type} {key lo hi : κ} {t : Node κ ν}

/-- The keys, read in order. -/
def inOrder (t : Node κ ν) : List κ := t.entries.map Prod.fst

theorem inOrder_node {k : κ} {v : ν} {left right : Node κ ν} {c : Bool} {n : ℕ} :
    (node k v left right c n).inOrder = left.inOrder ++ k :: right.inOrder := by
  simp [inOrder, entries]

theorem length_inOrder : t.inOrder.length = t.count := by
  rw [inOrder, List.length_map, count_eq_length]

theorem select_eq (hs : t.Sized) (i : ℕ) : t.select i = t.inOrder[i]? := by
  induction t generalizing i with
  | null => rfl
  | node k v left right c n ihl ihr =>
    rw [select, inOrder_node, hs.1.size_eq, ← length_inOrder]
    rcases lt_trichotomy i left.inOrder.length with hi | rfl | hi
    · rw [if_pos hi, ihl hs.1, List.getElem?_append_left hi]
    · rw [if_neg (lt_irrefl _), if_neg (lt_irrefl _), List.getElem?_append_right le_rfl,
        Nat.sub_self, List.getElem?_cons_zero]
    · rw [if_neg hi.not_gt, if_pos hi, ihr hs.2.1, List.getElem?_append_right hi.le]
      obtain ⟨d, rfl⟩ := Nat.exists_eq_add_of_lt hi
      have hd : left.inOrder.length + d + 1 - left.inOrder.length = d + 1 := by omega
      rw [hd, List.getElem?_cons_succ, Nat.add_sub_cancel]

variable [LinearOrder κ]

/-- A sorted tree, cut at its root. -/
theorem sorted_node {k : κ} {v : ν} {left right : Node κ ν} {c : Bool} {n : ℕ}
    (hs : SortedEntries (node k v left right c n).entries) :
    SortedEntries left.entries ∧ SortedEntries right.entries ∧ (∀ a ∈ left.inOrder, a < k) ∧
      ∀ a ∈ right.inOrder, k < a := by
  obtain ⟨hl, hr, hlow, hhigh⟩ := sortedEntries_cut.mp hs
  refine ⟨hl, hr, fun a ha => ?_, fun a ha => ?_⟩
  · obtain ⟨e, he, rfl⟩ := List.mem_map.mp ha
    exact hlow e he
  · obtain ⟨e, he, rfl⟩ := List.mem_map.mp ha
    exact hhigh e he

theorem get_eq (hs : SortedEntries t.entries) : t.get key = entryAt key t.entries := by
  induction t with
  | null => rfl
  | node k v left right c n ihl ihr =>
    obtain ⟨hl, hr, -, -⟩ := sortedEntries_cut.mp hs
    rw [get, entries]
    rcases lt_trichotomy key k with hkey | rfl | hkey
    · rw [if_pos hkey, ihl hl, entryAt_left hs hkey]
    · rw [if_neg (lt_irrefl _), if_neg (lt_irrefl _), entryAt_mid hs]
    · rw [if_neg hkey.not_gt, if_pos hkey, ihr hr, entryAt_right hs hkey]

theorem rank_eq (hs : SortedEntries t.entries) (hn : t.Sized) :
    t.rank key = t.inOrder.countP (· < key) := by
  induction t with
  | null => rfl
  | node k v left right c n ihl ihr =>
    obtain ⟨hl, hr, hlow, hhigh⟩ := sorted_node hs
    have hall (hkey : k ≤ key) : left.inOrder.countP (· < key) = left.inOrder.length :=
      List.countP_eq_length.mpr fun a ha => decide_eq_true ((hlow a ha).trans_le hkey)
    have hnone (hkey : key ≤ k) : right.inOrder.countP (· < key) = 0 :=
      List.countP_eq_zero.mpr fun a ha => by simpa using (hkey.trans_lt (hhigh a ha)).le
    rw [rank, inOrder_node, List.countP_append, List.countP_cons, hn.1.size_eq, ← length_inOrder]
    rcases lt_trichotomy key k with hkey | rfl | hkey
    · rw [if_pos hkey, ihl hl hn.1, hnone hkey.le, decide_eq_false hkey.not_gt]
      rfl
    · rw [if_neg (lt_irrefl _), if_neg (lt_irrefl _), hall le_rfl, hnone le_rfl,
        decide_eq_false (lt_irrefl _)]
      rfl
    · rw [if_neg hkey.not_gt, if_pos hkey, ihr hr hn.2.1, hall hkey.le, decide_eq_true hkey,
        if_pos rfl]
      omega

theorem floor_eq (hs : SortedEntries t.entries) :
    t.floor key = (t.inOrder.filter (· ≤ key)).getLast? := by
  induction t with
  | null => rfl
  | node k v left right c n ihl ihr =>
    obtain ⟨hl, hr, hlow, hhigh⟩ := sorted_node hs
    have hnone (hkey : key ≤ k) : right.inOrder.filter (· ≤ key) = [] :=
      List.filter_eq_nil_iff.mpr fun a ha => by simpa using hkey.trans_lt (hhigh a ha)
    rw [floor, inOrder_node, List.filter_append]
    rcases lt_trichotomy key k with hkey | rfl | hkey
    · rw [if_neg hkey.ne, if_pos hkey, ihl hl, List.filter_cons_of_neg (by simpa using hkey),
        hnone hkey.le, List.append_nil]
    · rw [if_pos rfl, List.filter_cons_of_pos (by simp), hnone le_rfl]
      simp
    · rw [if_neg hkey.ne', if_neg hkey.not_gt, ihr hr,
        List.filter_cons_of_pos (by simpa using hkey.le)]
      simp [List.getLast?_append, List.getLast?_cons]

theorem ceiling_eq (hs : SortedEntries t.entries) :
    t.ceiling key = (t.inOrder.filter (key ≤ ·)).head? := by
  induction t with
  | null => rfl
  | node k v left right c n ihl ihr =>
    obtain ⟨hl, hr, hlow, hhigh⟩ := sorted_node hs
    have hnone (hkey : k ≤ key) : left.inOrder.filter (key ≤ ·) = [] :=
      List.filter_eq_nil_iff.mpr fun a ha => by simpa using (hlow a ha).trans_le hkey
    rw [ceiling, inOrder_node, List.filter_append]
    rcases lt_trichotomy key k with hkey | rfl | hkey
    · rw [if_neg hkey.ne, if_neg hkey.not_gt, ihl hl,
        List.filter_cons_of_pos (by simpa using hkey.le)]
      simp [List.head?_append]
    · rw [if_pos rfl, hnone le_rfl, List.filter_cons_of_pos (by simp)]
      rfl
    · rw [if_neg hkey.ne', if_pos hkey, ihr hr, hnone hkey.le,
        List.filter_cons_of_neg (by simpa using hkey), List.nil_append]

theorem keys_eq (hs : SortedEntries t.entries) (queue : List κ) :
    t.keys lo hi queue = queue ++ t.inOrder.filter fun k => lo ≤ k ∧ k ≤ hi := by
  induction t generalizing queue with
  | null => exact (List.append_nil queue).symm
  | node k v left right c n ihl ihr =>
    obtain ⟨hl, hr, hlow, hhigh⟩ := sorted_node hs
    have hleft : (if lo < k then left.keys lo hi queue else queue) =
        queue ++ left.inOrder.filter fun k => lo ≤ k ∧ k ≤ hi := by
      split
      · exact ihl hl queue
      · rename_i hlo
        rw [List.filter_eq_nil_iff.mpr, List.append_nil]
        intro a ha
        have := (hlow a ha).trans_le (not_lt.mp hlo)
        simp [this.not_ge]
    have hright (queue : List κ) : (if k < hi then right.keys lo hi queue else queue) =
        queue ++ right.inOrder.filter fun k => lo ≤ k ∧ k ≤ hi := by
      split
      · exact ihr hr queue
      · rename_i hhi
        rw [List.filter_eq_nil_iff.mpr, List.append_nil]
        intro a ha
        have := (not_lt.mp hhi).trans_lt (hhigh a ha)
        simp [this.not_ge]
    rw [keys, inOrder_node, List.filter_append, List.filter_cons]
    rw [hleft, hright]
    by_cases hk : lo ≤ k ∧ k ≤ hi
    · simp [hk]
    · simp [hk]

end SystemDev.RedBlack.Node
