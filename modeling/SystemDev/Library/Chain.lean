import Mathlib.Data.List.Nodup
import Mathlib.Data.List.Perm.Basic

/-!
# Singly linked chains

Cells at addresses of any type have a `next` field that is null or the address of another cell.
`Linked next head l` says that the cells from `head` on are those of `l`, in order, and that the
last one has a null `next`: the chain is finite and ends. It speaks about the cells of `l` only,
so that relinking cells elsewhere does not touch it.

`next` is partial: an address without a cell has none.
-/

namespace SystemDev.Library

variable {ι : Type*} {next next' : ι → Option (Option ι)} {head : Option ι} {l : List ι} {a b : ι}

/-- The chain from `head` runs through `l` and ends. -/
def Linked (next : ι → Option (Option ι)) : Option ι → List ι → Prop
  | head, [] => head = none
  | head, a :: l => head = some a ∧ ∃ n, next a = some n ∧ Linked next n l

/-- The last cell of a chain, at most `fuel` cells from `a`. -/
def lastCell (next : ι → Option (Option ι)) : ℕ → ι → Option ι
  | 0, _ => none
  | fuel + 1, a =>
    match next a with
    | none => none
    | some none => some a
    | some (some b) => lastCell next fuel b

/-- A chain depends on the links of its own cells. -/
theorem Linked.congr (h : Linked next head l) (heq : ∀ a ∈ l, next' a = next a) :
    Linked next' head l := by
  induction l generalizing head with
  | nil => exact h
  | cons a l ih =>
    obtain ⟨hhead, n, hn, hl⟩ := h
    refine ⟨hhead, n, ?_, ih hl fun b hb => heq b (List.mem_cons_of_mem a hb)⟩
    rw [heq a List.mem_cons_self, hn]

/-- The chain of one cell. -/
theorem linked_singleton (h : next a = some none) : Linked next (some a) [a] :=
  ⟨rfl, none, h, rfl⟩

theorem Linked.head_eq_none_iff (h : Linked next head l) : head = none ↔ l = [] := by
  cases l with
  | nil => exact iff_of_true h rfl
  | cons a l =>
    rw [h.1]
    exact iff_of_false nofun nofun

/-- Every cell of a chain is there. -/
theorem Linked.exists_next (h : Linked next head l) (ha : a ∈ l) : ∃ n, next a = some n := by
  induction l generalizing head with
  | nil => cases ha
  | cons b l ih =>
    obtain ⟨-, n, hn, hl⟩ := h
    rcases List.mem_cons.mp ha with rfl | ha
    · exact ⟨n, hn⟩
    · exact ih hl ha

/-- Linking a cell behind the last one. -/
theorem Linked.snoc (h : Linked next head (l ++ [a])) (hl : ∀ c ∈ l, next' c = next c)
    (ha : next' a = some (some b)) (hb : next' b = some none) :
    Linked next' head (l ++ [a] ++ [b]) := by
  induction l generalizing head with
  | nil =>
    obtain ⟨hhead, -⟩ := h
    exact ⟨hhead, some b, ha, linked_singleton hb⟩
  | cons c l ih =>
    obtain ⟨hhead, n, hn, hrest⟩ := h
    refine ⟨hhead, n, ?_, ih hrest fun d hd => hl d (List.mem_cons_of_mem c hd)⟩
    rw [hl c List.mem_cons_self, hn]

/-- The walk finds the last cell. -/
theorem Linked.lastCell_eq {start : ι} (h : Linked next (some start) (l ++ [a])) {fuel : ℕ}
    (hfuel : l.length < fuel) : lastCell next fuel start = some a := by
  induction l generalizing start fuel with
  | nil =>
    obtain ⟨fuel, rfl⟩ : ∃ k, fuel = k + 1 := ⟨fuel - 1, by omega⟩
    obtain ⟨hhead, n, hn, hend⟩ := h
    obtain rfl := Option.some_inj.mp hhead
    obtain rfl : n = none := hend
    rw [lastCell, hn]
  | cons c l ih =>
    obtain ⟨fuel, rfl⟩ : ∃ k, fuel = k + 1 := ⟨fuel - 1, by omega⟩
    obtain ⟨hhead, n, hn, hrest⟩ := h
    obtain rfl := Option.some_inj.mp hhead
    cases n with
    | none => exact absurd (hrest.head_eq_none_iff.mp rfl) (by simp)
    | some d =>
      rw [lastCell, hn]
      exact ih hrest (by simpa using hfuel)

/-! ### Several chains -/

section Cells

variable {n i j : ℕ} {chain : ℕ → List ι}

/-- The cells of `n` chains, chain by chain and front to back. -/
def cells (n : ℕ) (chain : ℕ → List ι) : List ι := (List.range n).flatMap chain

/-- One more cell at the end of a chain. -/
def snocAt (chain : ℕ → List ι) (i : ℕ) (a : ι) : ℕ → List ι :=
  Function.update chain i (chain i ++ [a])

theorem cells_succ : cells (n + 1) chain = cells n chain ++ chain n := by
  simp [cells, List.range_succ]

@[simp] theorem cells_empty : cells n (fun _ => ([] : List ι)) = [] := by
  simp [cells]

theorem mem_cells : a ∈ cells n chain ↔ ∃ i < n, a ∈ chain i := by
  simp [cells]

theorem ne_of_not_mem_cells (h : b ∉ cells n chain) (hi : i < n) (ha : a ∈ chain i) : a ≠ b := by
  rintro rfl
  exact h (mem_cells.mpr ⟨i, hi, ha⟩)

theorem cells_sublist {m : ℕ} (h : m ≤ n) : (cells m chain).Sublist (cells n chain) := by
  induction h with
  | refl => exact List.Sublist.refl _
  | step _ ih =>
    rw [cells_succ]
    exact ih.trans (List.sublist_append_left _ _)

theorem length_le_cells (hi : i < n) : (chain i).length ≤ (cells n chain).length := by
  have h : (cells (i + 1) chain).length ≤ (cells n chain).length :=
    (cells_sublist (Nat.succ_le_of_lt hi)).length_le
  rw [cells_succ, List.length_append] at h
  omega

theorem nodup_of_cells (h : (cells n chain).Nodup) (hi : i < n) : (chain i).Nodup :=
  (List.nodup_flatMap.mp h).1 i (List.mem_range.mpr hi)

theorem not_mem_of_lt (h : (cells n chain).Nodup) (hj : j < n) (hij : i < j) (ha : a ∈ chain i) :
    a ∉ chain j := by
  have hsplit := h.sublist (cells_sublist (Nat.succ_le_of_lt hj))
  rw [cells_succ] at hsplit
  exact List.disjoint_of_nodup_append hsplit (mem_cells.mpr ⟨i, hij, ha⟩)

/-- A cell is on one chain only. -/
theorem eq_of_mem_chain (h : (cells n chain).Nodup) (hi : i < n) (hj : j < n)
    (hai : a ∈ chain i) (haj : a ∈ chain j) : i = j := by
  rcases Nat.lt_trichotomy i j with hlt | heq | hlt
  · exact absurd haj (not_mem_of_lt h hj hlt hai)
  · exact heq
  · exact absurd hai (not_mem_of_lt h hi hlt haj)

theorem cells_congr {chain' : ℕ → List ι} (h : ∀ i < n, chain' i = chain i) :
    cells n chain' = cells n chain := by
  induction n with
  | zero => rfl
  | succ n ih =>
    rw [cells_succ, cells_succ, h n (Nat.lt_succ_self n),
      ih fun i hi => h i (Nat.lt_succ_of_lt hi)]

/-- One more cell at the end of one of the chains. -/
theorem cells_snocAt_perm (hi : i < n) :
    (cells n (snocAt chain i a)).Perm (a :: cells n chain) := by
  induction n with
  | zero => exact absurd hi (Nat.not_lt_zero i)
  | succ n ih =>
    rw [cells_succ, cells_succ]
    rcases Nat.lt_succ_iff_lt_or_eq.mp hi with hlt | rfl
    · rw [snocAt, Function.update_of_ne (Nat.ne_of_gt hlt)]
      exact (ih hlt).append_right _
    · have hcells : cells i (snocAt chain i a) = cells i chain :=
        cells_congr fun j hj => Function.update_of_ne (Nat.ne_of_lt hj) _ _
      rw [hcells, snocAt, Function.update_self, ← List.append_assoc]
      exact List.perm_append_singleton a _

/-- Sorting cells into chains by a key. -/
def sortBy (key : ι → ℕ) (l : List ι) : ℕ → List ι := fun i => l.filter fun a => key a = i

/-- The chains hold every cell once. -/
theorem cells_sortBy_perm {key : ι → ℕ} (hl : l.Nodup) (hkey : ∀ a ∈ l, key a < n) :
    (cells n (sortBy key l)).Perm l := by
  have hnodup : (cells n (sortBy key l)).Nodup := by
    refine List.nodup_flatMap.mpr ⟨fun i _ => hl.filter _, ?_⟩
    refine List.nodup_range.imp fun hij a ha ha' => hij ?_
    have hi := (List.mem_filter.mp ha).2
    have hj := (List.mem_filter.mp ha').2
    exact (of_decide_eq_true hi).symm.trans (of_decide_eq_true hj)
  refine (List.perm_ext_iff_of_nodup hnodup hl).mpr fun a => ?_
  rw [mem_cells]
  constructor
  · rintro ⟨i, -, ha⟩
    exact (List.mem_filter.mp ha).1
  · intro ha
    exact ⟨key a, hkey a ha, List.mem_filter.mpr ⟨ha, decide_eq_true rfl⟩⟩

/-- The next cell goes to the end of the chain of its key. -/
theorem sortBy_append_singleton {key : ι → ℕ} :
    sortBy key (l ++ [a]) = snocAt (sortBy key l) (key a) a := by
  funext i
  rw [sortBy, List.filter_append]
  by_cases hi : key a = i
  · subst hi
    rw [snocAt, Function.update_self, List.filter_singleton, decide_eq_true rfl]
    rfl
  · rw [snocAt, Function.update_of_ne (Ne.symm hi), List.filter_singleton, decide_eq_false hi]
    exact List.append_nil _

end Cells

end SystemDev.Library
