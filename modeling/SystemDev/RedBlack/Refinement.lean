import Mathlib.Data.List.Nodup
import SystemDev.Library.Simulation
import SystemDev.RedBlack.Deletion
import SystemDev.RedBlack.Order
import SystemDev.RedBlack.Table

/-!
# The symbol table is a sorted list

Seen from outside, the table is the sorted list of its entries: whatever is called, in whatever
order and with whatever arguments, the answers are those of the list, exceptions included. The
invariant behind it is that of a left-leaning red-black tree with a black root, sorted entries and
right counts. The counts are those of the program as long as they fit an `int`; they do for fewer
than `2 ^ 31` calls of `put`.
-/

namespace SystemDev.RedBlack

open Library

variable {κ ν : Type}

namespace RedBlackBST

open Node

section Root

variable {c : Bool} {h : ℕ} {root : Node κ ν}

theorem blackenRoot_rearranges : Rearranges root (blackenRoot root) := by
  cases root with
  | null => exact .refl _
  | node => exact ⟨rfl, id, id⟩

theorem blackenRoot_leaning (ht : LeftLeaning c h root) :
    ∃ h', LeftLeaning false h' (blackenRoot root) := by
  cases ht with
  | null => exact ⟨0, .null⟩
  | black hl hr => exact ⟨_, .black hl hr⟩
  | red hl hr => exact ⟨_, .black hl hr⟩

theorem root_ne_null {t : RedBlackBST κ ν} (hne : t.root.entries ≠ []) : t.root ≠ Node.null := by
  intro hnull
  rw [hnull] at hne
  exact hne rfl

theorem isEmpty_eq_false {t : RedBlackBST κ ν} (h : t.root.entries ≠ []) : t.isEmpty = false := by
  obtain ⟨root⟩ := t
  cases root with
  | null => exact absurd rfl h
  | node => rfl

theorem isEmpty_eq {t : RedBlackBST κ ν} : t.isEmpty = t.root.entries.isEmpty := by
  by_cases hne : t.root.entries = []
  · obtain ⟨root⟩ := t
    cases root with
    | null => rfl
    | node => simp [entries] at hne
  · rw [isEmpty_eq_false hne, List.isEmpty_eq_false_iff.mpr hne]

theorem min_eq {t : RedBlackBST κ ν} : answer (fun k => (.key (some k) : Answer κ ν)) t.min =
    t.root.entries.head?.elim (.thrown .noSuchElement) fun e => .key (some e.1) := by
  rw [RedBlackBST.min, isEmpty_eq, min_eq_head?]
  cases t.root.entries with
  | nil => rfl
  | cons e l => rfl

theorem max_eq {t : RedBlackBST κ ν} : answer (fun k => (.key (some k) : Answer κ ν)) t.max =
    t.root.entries.getLast?.elim (.thrown .noSuchElement) fun e => .key (some e.1) := by
  rw [RedBlackBST.max, isEmpty_eq, max_eq_getLast?]
  by_cases hne : t.root.entries = []
  · rw [hne]
    rfl
  · rw [List.isEmpty_eq_false_iff.mpr hne, List.getLast?_eq_some_getLast hne]
    rfl

/-- A deletion can descend from the root once it is red or has a red child. -/
theorem reddenRoot_deletable (ht : LeftLeaning false h root) (hne : root ≠ Node.null) :
    ∃ c' h' root', reddenRoot root = .ok root' ∧ Deletable c' h' root' ∧
      Rearranges root root' := by
  cases ht with
  | null => exact absurd rfl hne
  | @black c h _ _ _ _ _ hl hr =>
    cases c with
    | true =>
      refine ⟨false, h + 1, _, rfl, ?_, ⟨rfl, id, id⟩⟩
      rw [hl.isRed_eq]
      exact .black hl hr
    | false =>
      refine ⟨true, h, _, rfl, ?_, ⟨rfl, id, id⟩⟩
      rw [hl.isRed_eq, hr.isRed_eq]
      exact .red (.red hl hr)

end Root

end RedBlackBST

variable [LinearOrder κ]

/-- The same call on a sorted list of entries. -/
def listCall (l : List (κ × ν)) : Call κ ν → List (κ × ν) × Answer κ ν
  | .put none _ => (l, .thrown .nullPointer)
  | .put (some key) none => (eraseEntry key l, .done)
  | .put (some key) (some val) => (insertEntry key val l, .done)
  | .delete none => (l, .thrown .nullPointer)
  | .delete (some key) => (eraseEntry key l, .done)
  | .deleteMin => if l = [] then (l, .thrown .noSuchElement) else (l.tail, .done)
  | .deleteMax => if l = [] then (l, .thrown .noSuchElement) else (l.dropLast, .done)
  | .get none => (l, .thrown .nullPointer)
  | .get (some key) => (l, .value (entryAt key l))
  | .contains none => (l, .thrown .nullPointer)
  | .contains (some key) => (l, .flag (l.any fun e => e.1 = key))
  | .size => (l, .number l.length)
  | .isEmpty => (l, .flag l.isEmpty)
  | .min => (l, l.head?.elim (.thrown .noSuchElement) fun e => .key (some e.1))
  | .max => (l, l.getLast?.elim (.thrown .noSuchElement) fun e => .key (some e.1))
  | .floor none => (l, .thrown .nullPointer)
  | .floor (some key) =>
    (l, if l = [] then .thrown .noSuchElement
      else .key ((l.map Prod.fst).filter (· ≤ key)).getLast?)
  | .ceiling none => (l, .thrown .nullPointer)
  | .ceiling (some key) =>
    (l, if l = [] then .thrown .noSuchElement
      else .key ((l.map Prod.fst).filter (key ≤ ·)).head?)
  | .select k =>
    (l, if k < 0 then .thrown .illegalArgument
      else l[k.toNat]?.elim (.thrown .illegalArgument) fun e => .key (some e.1))
  | .rank none => (l, .thrown .nullPointer)
  | .rank (some key) => (l, .number ((l.map Prod.fst).countP (· < key)))
  | .keys => (l, .keys (l.map Prod.fst))
  | .keysBetween (some lo) (some hi) =>
    (l, .keys ((l.map Prod.fst).filter fun k => lo ≤ k ∧ k ≤ hi))
  | .keysBetween _ _ => (l, .thrown .nullPointer)
  | .sizeBetween (some lo) (some hi) =>
    (l, .number ((l.map Prod.fst).countP fun k => lo ≤ k ∧ k ≤ hi))
  | .sizeBetween _ _ => (l, .thrown .nullPointer)

namespace RedBlackBST

open Node

/-- The table between two calls. -/
structure Valid (t : RedBlackBST κ ν) : Prop where
  leaning : ∃ h, LeftLeaning false h t.root
  sized : t.root.Sized
  sorted : SortedEntries t.root.entries

theorem valid_new : Valid (new : RedBlackBST κ ν) :=
  ⟨⟨0, .null⟩, trivial, List.Pairwise.nil⟩

section Update

variable {t : RedBlackBST κ ν} {key : κ} {val : ν}

/-- The table after a deletion from the root. -/
theorem valid_of_removed {c : Bool} {h : ℕ} {root root' : Node κ ν} {l : List (κ × ν)}
    (hr : Removed c h root l root') (hn : root.Sized) (hs : SortedEntries l) :
    Valid ⟨blackenRoot root'⟩ ∧ (blackenRoot root').entries = l := by
  obtain ⟨c', ht, -⟩ := hr.repaired
  have hre : Rearranges root' (blackenRoot root') := blackenRoot_rearranges
  have hl : (blackenRoot root').entries = l := hre.entries_eq.trans hr.entries_eq
  exact ⟨⟨blackenRoot_leaning ht, hre.sized (hr.sized hn), hl ▸ hs⟩, hl⟩

theorem Valid.contains_eq (ht : Valid t) :
    t.contains (some key) = .ok (entryAt key t.root.entries).isSome := by
  rw [← get_eq ht.sorted]
  rfl

theorem Valid.put (ht : Valid t) : ∃ t', t.put (some key) (some val) = .ok t' ∧ Valid t' ∧
    t'.root.entries = insertEntry key val t.root.entries := by
  obtain ⟨h, hroot⟩ := ht.leaning
  obtain ⟨root, hput, hgrown⟩ := hroot.put key val
  have hentries := put_entries hput ht.sorted
  have hsorted : SortedEntries root.entries := hentries ▸ ht.sorted.insertEntry
  obtain ⟨hleaning⟩ := hgrown
  cases root with
  | null => exact absurd hentries.symm insertEntry_ne_nil
  | node k v left right c n =>
    refine ⟨⟨.node k v left right false n⟩, ?_, ⟨blackenRoot_leaning hleaning, ?_, hsorted⟩,
      hentries⟩
    · simp only [RedBlackBST.put, hput, deref_some, ok_bind, setColor, pure_eq_ok]
    · exact blackenRoot_rearranges.sized (put_sized hput ht.sized)

theorem Valid.delete (ht : Valid t) : ∃ t', t.delete (some key) = .ok t' ∧ Valid t' ∧
    t'.root.entries = eraseEntry key t.root.entries := by
  by_cases hkey : HasKey key t.root.entries
  · have hne : t.root.entries ≠ [] := by
      obtain ⟨e, he, -⟩ := hkey
      exact List.ne_nil_of_mem he
    obtain ⟨h, hroot⟩ := ht.leaning
    obtain ⟨c', h', root, hredden, hdeletable, hre⟩ := reddenRoot_deletable hroot (root_ne_null hne)
    rw [← hre.entries_eq] at hkey ⊢
    have hsorted : SortedEntries root.entries := hre.entries_eq ▸ ht.sorted
    obtain ⟨root', hdelete, hremoved⟩ :=
      (Passable.deletable hdeletable).delete le_rfl le_rfl hsorted hkey
    obtain ⟨hvalid, hentries⟩ :=
      valid_of_removed hremoved (hre.sized ht.sized) hsorted.eraseEntry
    refine ⟨_, ?_, hvalid, hentries⟩
    rw [hre.entries_eq] at hkey
    simp [RedBlackBST.delete, ht.contains_eq, entryAt_isSome.mpr hkey, hredden, hdelete]
  · refine ⟨t, ?_, ht, (eraseEntry_eq_self hkey).symm⟩
    simp [RedBlackBST.delete, ht.contains_eq, entryAt_eq_none hkey]

theorem Valid.deleteMin (ht : Valid t) (hne : t.root.entries ≠ []) :
    ∃ t', t.deleteMin = .ok t' ∧ Valid t' ∧ t'.root.entries = t.root.entries.tail := by
  obtain ⟨h, hroot⟩ := ht.leaning
  obtain ⟨c', h', root, hredden, hdeletable, hre⟩ :=
    reddenRoot_deletable hroot (root_ne_null hne)
  obtain ⟨root', hdelete, hremoved⟩ := hdeletable.deleteMin le_rfl
  have hsorted : SortedEntries root.entries.tail :=
    (hre.entries_eq ▸ ht.sorted).sublist (List.tail_sublist _)
  obtain ⟨hvalid, hentries⟩ := valid_of_removed hremoved (hre.sized ht.sized) hsorted
  refine ⟨_, ?_, hvalid, hre.entries_eq ▸ hentries⟩
  simp [RedBlackBST.deleteMin, isEmpty_eq_false hne, hredden, hdelete]

theorem Valid.deleteMax (ht : Valid t) (hne : t.root.entries ≠ []) :
    ∃ t', t.deleteMax = .ok t' ∧ Valid t' ∧ t'.root.entries = t.root.entries.dropLast := by
  obtain ⟨h, hroot⟩ := ht.leaning
  obtain ⟨c', h', root, hredden, hdeletable, hre⟩ :=
    reddenRoot_deletable hroot (root_ne_null hne)
  obtain ⟨e, he⟩ := List.exists_mem_of_ne_nil _ hne
  obtain ⟨root', hdelete, hremoved⟩ :=
    (Passable.deletable (k := e.1) hdeletable).deleteMax le_rfl
  have hsorted : SortedEntries root.entries.dropLast :=
    (hre.entries_eq ▸ ht.sorted).sublist (List.dropLast_sublist _)
  obtain ⟨hvalid, hentries⟩ := valid_of_removed hremoved (hre.sized ht.sized) hsorted
  refine ⟨_, ?_, hvalid, hre.entries_eq ▸ hentries⟩
  simp [RedBlackBST.deleteMax, isEmpty_eq_false hne, hredden, hdelete]

end Update

/-! ### Questions -/

section Ask

variable {t : RedBlackBST κ ν} {key lo hi : κ}

theorem Valid.size_eq (ht : Valid t) : t.size = t.root.entries.length := by
  rw [size, ht.sized.size_eq, count_eq_length]

theorem Valid.floor_eq (ht : Valid t) : answer .key (t.floor (some key)) =
    if t.root.entries = [] then (.thrown .noSuchElement : Answer κ ν)
    else .key (t.root.inOrder.filter (· ≤ key)).getLast? := by
  rw [RedBlackBST.floor, deref_some, ok_bind, isEmpty_eq, Node.floor_eq ht.sorted]
  by_cases hne : t.root.entries = []
  · rw [hne]
    rfl
  · rw [List.isEmpty_eq_false_iff.mpr hne, if_neg hne]
    rfl

theorem Valid.ceiling_eq (ht : Valid t) : answer .key (t.ceiling (some key)) =
    if t.root.entries = [] then (.thrown .noSuchElement : Answer κ ν)
    else .key (t.root.inOrder.filter (key ≤ ·)).head? := by
  rw [RedBlackBST.ceiling, deref_some, ok_bind, isEmpty_eq, Node.ceiling_eq ht.sorted]
  by_cases hne : t.root.entries = []
  · rw [hne]
    rfl
  · rw [List.isEmpty_eq_false_iff.mpr hne, if_neg hne]
    rfl

theorem Valid.select_eq (ht : Valid t) (i : ℤ) :
    answer (fun k => (.key (some k) : Answer κ ν)) (t.select i) =
    if i < 0 then .thrown .illegalArgument
    else t.root.entries[i.toNat]?.elim (.thrown .illegalArgument) fun e => .key (some e.1) := by
  rw [RedBlackBST.select, ht.size_eq, Node.select_eq ht.sized, inOrder, List.getElem?_map]
  by_cases hi : i < 0
  · rw [if_pos hi, if_pos (Or.inl hi)]
    rfl
  · rw [if_neg hi]
    by_cases hlen : (t.root.entries.length : ℤ) ≤ i
    · rw [if_pos (Or.inr hlen), List.getElem?_eq_none (by omega)]
      rfl
    · rw [if_neg (by omega), List.getElem?_eq_getElem (by omega : i.toNat < _)]
      rfl

theorem rank_eq (hs : SortedEntries t.root.entries) (hn : t.root.Sized) :
    t.rank (some key) = .ok (t.root.inOrder.countP (· < key)) := by
  rw [← Node.rank_eq hs hn]
  rfl

theorem keysBetween_eq (hs : SortedEntries t.root.entries) : t.keysBetween (some lo) (some hi) =
    .ok (t.root.inOrder.filter fun k => lo ≤ k ∧ k ≤ hi) := by
  rw [← List.nil_append (List.filter _ _), ← Node.keys_eq hs]
  rfl

theorem keys_eq (hs : SortedEntries t.root.entries) : t.keys = .ok t.root.inOrder := by
  rw [RedBlackBST.keys, isEmpty_eq]
  by_cases hne : t.root.entries = []
  · rw [inOrder, hne]
    rfl
  · have hfirst := List.head?_eq_some_head hne
    have hlast := List.getLast?_eq_some_getLast hne
    have hmin : t.min = .ok (t.root.entries.head hne).1 := by
      rw [RedBlackBST.min, isEmpty_eq_false hne, min_eq_head?, hfirst]
      rfl
    have hmax : t.max = .ok (t.root.entries.getLast hne).1 := by
      rw [RedBlackBST.max, isEmpty_eq_false hne, max_eq_getLast?, hlast]
      rfl
    rw [List.isEmpty_eq_false_iff.mpr hne, if_neg Bool.false_ne_true, hmin, ok_bind, hmax, ok_bind,
      keysBetween_eq hs, List.filter_eq_self.mpr]
    intro k hk
    obtain ⟨e, he, rfl⟩ := List.mem_map.mp hk
    exact decide_eq_true ⟨hs.head_le hfirst he, hs.le_getLast hlast he⟩

/-- `size(lo, hi)` counts the keys that `keys(lo, hi)` lists. -/
theorem Valid.sizeBetween_eq (ht : Valid t) : t.sizeBetween (some lo) (some hi) =
    .ok ((t.root.inOrder.countP fun k => lo ≤ k ∧ k ≤ hi : ℕ) : ℤ) := by
  simp only [sizeBetween, deref_some, ok_bind, ht.contains_eq, rank_eq ht.sorted ht.sized]
  by_cases hlt : hi < lo
  · have hnone : t.root.inOrder.countP (fun k => lo ≤ k ∧ k ≤ hi) = 0 :=
      List.countP_eq_zero.mpr fun k _ => by simpa using fun hk => hlt.trans_le hk
    rw [if_pos hlt, hnone]
    rfl
  · rw [if_neg hlt]
    have hsum := countP_between t.root.inOrder (not_lt.mp hlt)
    rw [countP_le_eq] at hsum
    cases hfound : (entryAt hi t.root.entries).isSome with
    | true =>
      obtain ⟨e, he, rfl⟩ := entryAt_isSome.mp hfound
      have hone : t.root.inOrder.count e.1 = 1 :=
        List.count_eq_one_of_mem ht.sorted.nodup_keys (List.mem_map_of_mem he)
      rw [if_pos rfl]
      refine congrArg Except.ok ?_
      omega
    | false =>
      have hzero : t.root.inOrder.count hi = 0 := by
        refine List.count_eq_zero_of_not_mem fun hmem => ?_
        obtain ⟨e, he, rfl⟩ := List.mem_map.mp hmem
        rw [entryAt_isSome.mpr ⟨e, he, rfl⟩] at hfound
        exact absurd hfound.symm Bool.false_ne_true
      rw [if_neg Bool.false_ne_true]
      refine congrArg Except.ok ?_
      omega

end Ask

/-! ### Calls -/

section Calls

variable {t : RedBlackBST κ ν}

/-- The table and the list are in step after a call, and give the same answer. -/
structure InStep (t : RedBlackBST κ ν) (c : Call κ ν) : Prop where
  valid : Valid (t.call c).1
  entries_eq : (t.call c).1.root.entries = (listCall t.root.entries c).1
  answer_eq : (t.call c).2 = (listCall t.root.entries c).2

/-- A call that changes the table. -/
theorem inStep_of_update {c : Call κ ν} {r : Except Thrown (RedBlackBST κ ν)}
    {l : List (κ × ν)} (hcall : t.call c = t.update r)
    (hlist : listCall t.root.entries c = (l, .done))
    (h : ∃ t', r = .ok t' ∧ Valid t' ∧ t'.root.entries = l) : InStep t c := by
  obtain ⟨t', rfl, hvalid, hentries⟩ := h
  refine ⟨?_, ?_, ?_⟩
  · rw [hcall]
    exact hvalid
  · rw [hcall, hlist]
    exact hentries
  · rw [hcall, hlist]
    rfl

/-- A call that only asks, or throws. -/
theorem Valid.inStep_of_answer (ht : Valid t) {c : Call κ ν} {a : Answer κ ν}
    (hcall : t.call c = (t, a)) (hlist : listCall t.root.entries c = (t.root.entries, a)) :
    InStep t c := by
  refine ⟨?_, ?_, ?_⟩
  · rw [hcall]
    exact ht
  · rw [hcall, hlist]
  · rw [hcall, hlist]

theorem Valid.deleteMin_inStep (ht : Valid t) : InStep t .deleteMin := by
  by_cases hne : t.root.entries = []
  · refine ht.inStep_of_answer (a := .thrown .noSuchElement) ?_ (if_pos hne)
    rw [call, RedBlackBST.deleteMin, isEmpty_eq, hne]
    rfl
  · exact inStep_of_update rfl (if_neg hne) (ht.deleteMin hne)

theorem Valid.deleteMax_inStep (ht : Valid t) : InStep t .deleteMax := by
  by_cases hne : t.root.entries = []
  · refine ht.inStep_of_answer (a := .thrown .noSuchElement) ?_ (if_pos hne)
    rw [call, RedBlackBST.deleteMax, isEmpty_eq, hne]
    rfl
  · exact inStep_of_update rfl (if_neg hne) (ht.deleteMax hne)

theorem Valid.inStep (ht : Valid t) : ∀ c, InStep t c
  | .put none _ => ht.inStep_of_answer rfl rfl
  | .put (some _) none => inStep_of_update rfl rfl ht.delete
  | .put (some _) (some _) => inStep_of_update rfl rfl ht.put
  | .delete none => ht.inStep_of_answer rfl rfl
  | .delete (some _) => inStep_of_update rfl rfl ht.delete
  | .deleteMin => ht.deleteMin_inStep
  | .deleteMax => ht.deleteMax_inStep
  | .get none => ht.inStep_of_answer rfl rfl
  | .get (some key) => by
    refine ht.inStep_of_answer ?_ rfl
    rw [call, ← Node.get_eq ht.sorted]
    rfl
  | .contains none => ht.inStep_of_answer rfl rfl
  | .contains (some key) => by
    refine ht.inStep_of_answer ?_ rfl
    rw [call, ht.contains_eq, entryAt_isSome_eq_any]
    rfl
  | .size => ht.inStep_of_answer (by rw [call, ht.size_eq]) rfl
  | .isEmpty => ht.inStep_of_answer (by rw [call, isEmpty_eq]) rfl
  | .min => ht.inStep_of_answer (by rw [call, min_eq]) rfl
  | .max => ht.inStep_of_answer (by rw [call, max_eq]) rfl
  | .floor none => ht.inStep_of_answer rfl rfl
  | .floor (some key) => ht.inStep_of_answer (by rw [call, ht.floor_eq, inOrder]) rfl
  | .ceiling none => ht.inStep_of_answer rfl rfl
  | .ceiling (some key) => ht.inStep_of_answer (by rw [call, ht.ceiling_eq, inOrder]) rfl
  | .select k => ht.inStep_of_answer (by rw [call, ht.select_eq]) rfl
  | .rank none => ht.inStep_of_answer rfl rfl
  | .rank (some key) =>
    ht.inStep_of_answer (by rw [call, rank_eq ht.sorted ht.sized]; rfl) rfl
  | .keys => ht.inStep_of_answer (by rw [call, keys_eq ht.sorted]; rfl) rfl
  | .keysBetween none _ => ht.inStep_of_answer rfl rfl
  | .keysBetween (some _) none => ht.inStep_of_answer rfl rfl
  | .keysBetween (some lo) (some hi) =>
    ht.inStep_of_answer (by rw [call, keysBetween_eq ht.sorted]; rfl) rfl
  | .sizeBetween none _ => ht.inStep_of_answer rfl rfl
  | .sizeBetween (some _) none => ht.inStep_of_answer rfl rfl
  | .sizeBetween (some lo) (some hi) =>
    ht.inStep_of_answer (by rw [call, ht.sizeBetween_eq]; rfl) rfl

theorem valid_run (calls : List (Call κ ν)) : Valid (run calls) := by
  have hkeep : ∀ (calls : List (Call κ ν)) (t : RedBlackBST κ ν), Valid t →
      Valid (calls.foldl (fun t c => (t.call c).1) t) := by
    intro calls
    induction calls with
    | nil => exact fun t ht => ht
    | cons c calls ih => exact fun t ht => ih _ (ht.inStep c).valid
  exact hkeep calls new valid_new

/-- Only `put` adds an entry, and at most one. -/
theorem length_listCall_le (l : List (κ × ν)) (c : Call κ ν) :
    (listCall l c).1.length ≤ l.length + if c.isPut then 1 else 0 := by
  cases c with
  | put key val =>
    cases key with
    | none => exact Nat.le_succ _
    | some key =>
      cases val with
      | none => exact (List.length_filter_le _ l).trans (Nat.le_succ _)
      | some val => exact length_insertEntry_le
  | delete key =>
    cases key with
    | none => exact Nat.le_refl _
    | some key => exact List.length_filter_le _ l
  | deleteMin =>
    by_cases hne : l = []
    · rw [listCall, if_pos hne]
      exact Nat.le_refl _
    · rw [listCall, if_neg hne]
      exact (List.tail_sublist l).length_le
  | deleteMax =>
    by_cases hne : l = []
    · rw [listCall, if_pos hne]
      exact Nat.le_refl _
    · rw [listCall, if_neg hne]
      exact (List.dropLast_sublist l).length_le
  | get key | contains key | floor key | ceiling key | rank key =>
    cases key <;> exact Nat.le_refl _
  | keysBetween lo hi | sizeBetween lo hi =>
    cases lo <;> cases hi <;> exact Nat.le_refl _
  | size | isEmpty | min | max | select _ | keys => exact Nat.le_refl _

theorem length_entries_run_le (calls : List (Call κ ν)) :
    (run calls).root.entries.length ≤ calls.countP Call.isPut := by
  have hkeep : ∀ (calls : List (Call κ ν)) (t : RedBlackBST κ ν), Valid t →
      (calls.foldl (fun t c => (t.call c).1) t).root.entries.length ≤
        t.root.entries.length + calls.countP Call.isPut := by
    intro calls
    induction calls with
    | nil => exact fun t _ => Nat.le_refl _
    | cons c calls ih =>
      intro t ht
      have hstep := ht.inStep c
      have hlater := ih _ hstep.valid
      have hone := length_listCall_le t.root.entries c
      rw [hstep.entries_eq] at hlater
      rw [List.countP_cons]
      exact hlater.trans (by omega)
  have hall := hkeep calls new valid_new
  rwa [show (new : RedBlackBST κ ν).root.entries.length = 0 from rfl, Nat.zero_add] at hall

/-- With fewer than `2 ^ 31` calls of `put` every count is one that the program has too. -/
theorem countsFit_run (calls : List (Call κ ν)) (hputs : calls.countP Call.isPut < 2 ^ 31) :
    (run calls).root.CountsFit := by
  refine (valid_run calls).sized.countsFit ?_
  rw [count_eq_length]
  exact Nat.lt_of_le_of_lt (length_entries_run_le calls) hputs

theorem runAnswers_call (t : RedBlackBST κ ν) (calls : List (Call κ ν))
    {r : RedBlackBST κ ν × List (Answer κ ν)}
    (h : runAnswers (fun (t : RedBlackBST κ ν) c => some (t.call c)) t calls = some r) :
    r.1 = calls.foldl (fun t c => (t.call c).1) t := by
  induction calls generalizing t r with
  | nil => exact congrArg Prod.fst (Option.some_inj.mp h).symm
  | cons c calls ih =>
    obtain ⟨q, hq, rfl⟩ := Option.map_eq_some_iff.mp h
    change q.1 = _
    exact ih (t.call c).1 hq

/-- Up to `2 ^ 31` calls of `put`, the answers of a table, from `new` on, are those of a sorted list
of entries, which in the end has the entries of the table, and no count has overflowed. -/
theorem table_refines_list (calls : List (Call κ ν)) (hputs : calls.countP Call.isPut < 2 ^ 31) :
    ∃ t answers,
      runAnswers (fun (t : RedBlackBST κ ν) c => some (t.call c)) new calls = some (t, answers) ∧
      runAnswers (fun l c => some (listCall l c)) [] calls = some (t.root.entries, answers) ∧
      t.root.CountsFit := by
  obtain ⟨⟨l, answers⟩, hl⟩ := runAnswers_total (fun l c => listCall l c) [] calls
  -- the relation is that the table is valid and has the entries of the list
  have sim : ∀ (c : Call κ ν) (_ : List (Call κ ν)) (t : RedBlackBST κ ν) l l' a,
      Valid t ∧ t.root.entries = l → some (listCall l c) = some (l', a) →
      ∃ t', some (t.call c) = some (t', a) ∧ Valid t' ∧ t'.root.entries = l' := by
    rintro c - t - l' a ⟨hvalid, rfl⟩ hspec
    have hstep := hvalid.inStep c
    rw [Option.some_inj] at hspec
    refine ⟨(t.call c).1, ?_, hstep.valid, by rw [hstep.entries_eq, hspec]⟩
    rw [Option.some_inj, Prod.ext_iff]
    exact ⟨rfl, by rw [hstep.answer_eq, hspec]⟩
  obtain ⟨t, ht, -, rfl⟩ :=
    runAnswers_simulates (R := fun _ t l => Valid t ∧ t.root.entries = l) sim ⟨valid_new, rfl⟩ hl
  refine ⟨t, answers, ht, hl, ?_⟩
  have hend : t = run calls := runAnswers_call new calls ht
  rw [hend]
  exact countsFit_run calls hputs

/-- Calls that add, replace and remove entries, and ask for a rank. -/
def someCalls : List (Call ℕ ℕ) :=
  [.put (some 2) (some 20), .put (some 1) (some 10), .put (some 3) (some 30),
    .put (some 2) (some 21), .deleteMin, .rank (some 3), .delete none]

theorem table_refines_list_someCalls :
    ∃ t answers,
      runAnswers (fun (t : RedBlackBST ℕ ℕ) c => some (t.call c)) new someCalls =
        some (t, answers) ∧
      runAnswers (fun l c => some (listCall l c)) [] someCalls = some (t.root.entries, answers) ∧
      t.root.CountsFit :=
  table_refines_list someCalls (by decide)

end Calls

end RedBlackBST

end SystemDev.RedBlack
