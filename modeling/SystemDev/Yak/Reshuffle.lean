import SystemDev.Yak.Chains

/-!
# Reshuffling

The reshuffle takes the cells off the old chains one by one. `Moving t key done t'` describes the
table `t'` when the cells `done` of `t` have been moved: the new chains hold exactly these, in the
order in which they were moved, and the links of all others are still those of `t`. The chain being
walked is among the others, so the walk does not see what it relinks.

## Main results

* `Moving.moveTurn` — one cell
* `moveChain_settles` — one old chain
* `reshuffle_settles` — all of them
* `reshuffle_reshuffles` — the buckets of the cells afterwards
-/

namespace SystemDev.Yak

open SystemDev.Library

variable {t t' : Table} {chain : ℕ → List ℕ} {key : ℕ → ℕ} {moved rest : List ℕ} {n k : ℕ}
  {head m : Option ℕ}

theorem index_of_nonneg {v : ℤ} {length : ℕ} (hv : 0 ≤ v) (hlength : 0 < length) :
    index v length = some (v % length).toNat := by
  have hmod : v.tmod length = v % length := Int.tmod_eq_emod_of_nonneg hv
  have hpos : 0 ≤ v % length := Int.emod_nonneg v (by omega)
  rw [index, hmod, if_neg (by omega)]

theorem index_lt {v : ℤ} {length i : ℕ} (h : index v length = some i) : i < length := by
  rw [index] at h
  by_cases hbad : length = 0 ∨ v.tmod length < 0
  · rw [if_pos hbad] at h
    cases h
  · rw [if_neg hbad, Option.some_inj] at h
    have hlength : 0 < length := by omega
    have hlt : v.tmod length < length := Int.tmod_lt_of_pos v (Int.natCast_pos.mpr hlength)
    omega

/-- The cells have values, and `key` is the index in the new array. -/
def Keyed (t : Table) (key : ℕ → ℕ) (l : List ℕ) : Prop :=
  ∀ a ∈ l, ∃ v, valueOf t.heap a = some v ∧ index v (2 * t.nodes.length) = some (key a)

theorem Keyed.lt {l : List ℕ} (h : Keyed t key l) : ∀ a ∈ l, key a < 2 * t.nodes.length := by
  intro a ha
  obtain ⟨v, -, hindex⟩ := h a ha
  exact index_lt hindex

theorem Keyed.sublist {l l' : List ℕ} (h : Keyed t key l) (hl : l'.Sublist l) : Keyed t key l' :=
  fun a ha => h a (hl.subset ha)

/-- The reshuffle of `t` when the cells `moved` are on the new chains. -/
structure Moving (t : Table) (key : ℕ → ℕ) (moved : List ℕ) (t' : Table) : Prop where
  length_nodes : t'.nodes.length = 2 * t.nodes.length
  length_heap : t'.heap.length = t.heap.length
  buckets : Buckets t' (sortBy key moved)
  value : ∀ a, valueOf t'.heap a = valueOf t.heap a
  next : ∀ a ∉ moved, nextOf t'.heap a = nextOf t.heap a

/-- What a turn makes of the table: the cell is linked behind the last one of its new bucket, then
its own link is cleared. -/
def Table.moveBehind (t : Table) (pos n : ℕ) (last : Option ℕ) : Table :=
  { t.linkBehind pos n last with heap := setNext (t.linkBehind pos n last).heap n none }

/-- One cell. -/
theorem Moving.moveTurn (h : Moving t key moved t') (hnodup : moved.Nodup)
    (hkey : Keyed t key (moved ++ [n])) (hn : n ∉ moved) (hlt : n < t.heap.length) :
    Moving t key (moved ++ [n])
      (t'.moveBehind (key n) n (sortBy key moved (key n)).getLast?) where
  length_nodes := length_nodes_linkBehind.trans h.length_nodes
  length_heap := by
    rw [Table.moveBehind, length_setNext, length_heap_linkBehind, h.length_heap]
  buckets := by
    have hpos : key n < t'.nodes.length := by
      rw [h.length_nodes]
      exact hkey.lt n (List.mem_append_right _ (List.mem_singleton_self n))
    have hcells : (cells t'.nodes.length (sortBy key moved)).Perm moved := by
      rw [h.length_nodes]
      exact cells_sortBy_perm hnodup (hkey.sublist (List.sublist_append_left _ _)).lt
    rw [sortBy_append_singleton]
    apply h.buckets.link hpos
    · exact fun hmem => hn (hcells.mem_iff.mp hmem)
    · exact fun a ha => nextOf_setNext_of_ne ha
    · apply nextOf_setNext_self
      rw [length_heap_linkBehind, h.length_heap]
      exact hlt
  value := by
    intro a
    rw [Table.moveBehind, valueOf_setNext, valueOf_linkBehind, h.value]
  next := by
    intro a ha
    rw [List.mem_append, List.mem_singleton, not_or] at ha
    rw [Table.moveBehind, nextOf_setNext_of_ne ha.2, nextOf_linkBehind, h.next a ha.1]
    -- the last cell of the new chain has been moved before
    rintro b hb rfl
    exact ha.1 (List.mem_of_mem_filter (List.mem_of_getLast? hb))

/-- The turn reads the value and the link that the cell had in `t`. -/
theorem Moving.moveChain_some (h : Moving t key moved t') (hn : n ∉ moved)
    (hkey : Keyed t key (moved ++ [n])) (hm : nextOf t.heap n = some m) {fuel turns : ℕ}
    (hfuel : moved.length < fuel) :
    moveChain fuel (turns + 1) t' (some n) =
      moveChain fuel turns (t'.moveBehind (key n) n (sortBy key moved (key n)).getLast?) m := by
  obtain ⟨v, hv, hindex⟩ := hkey n (List.mem_append_right _ (List.mem_singleton_self n))
  rw [← h.value n] at hv
  rw [← h.next n hn] at hm
  obtain ⟨node, hnode, rfl⟩ := Option.map_eq_some_iff.mp hm
  obtain rfl : node.value = v := by
    rw [valueOf, hnode] at hv
    exact Option.some_inj.mp hv
  have happend : t'.append fuel (key n) n
      = some (t'.linkBehind (key n) n (sortBy key moved (key n)).getLast?) := by
    apply h.buckets.append_eq
    · rw [h.length_nodes]
      exact index_lt hindex
    · exact Nat.lt_of_le_of_lt (List.length_filter_le _ _) hfuel
  rw [moveChain, hnode, Option.bind_some, h.length_nodes, hindex, Option.bind_some, happend,
    Option.bind_some]
  rfl

/-- One old chain. The turns may be fewer than the fuel, but not than the cells of the chain. -/
theorem moveChain_settles (h : Moving t key moved t') (hlinked : Linked (nextOf t.heap) head rest)
    (hnodup : (moved ++ rest).Nodup) (hkey : Keyed t key (moved ++ rest))
    (hk : (moved ++ rest).length ≤ k) {turns : ℕ → ℕ}
    (hturns : ∀ fuel, k < fuel → rest.length ≤ turns fuel) :
    Settles k (fun fuel => moveChain fuel (turns fuel) t' head) (Moving t key (moved ++ rest)) := by
  induction rest generalizing head moved t' turns with
  | nil =>
    obtain rfl : head = none := hlinked
    rw [List.append_nil]
    refine (Settles.pure h).congr fun fuel _ => ?_
    rw [moveChain]
  | cons n rest ih =>
    obtain ⟨rfl, m, hm, hrest⟩ := hlinked
    have hn : n ∉ moved := fun hmem =>
      List.disjoint_of_nodup_append hnodup hmem List.mem_cons_self
    rw [List.append_cons] at hnodup hkey hk ⊢
    have hkeyn : Keyed t key (moved ++ [n]) := hkey.sublist (List.sublist_append_left _ _)
    have hmoved := h.moveTurn hnodup.of_append_left.of_append_left hkeyn hn (lt_length_of_nextOf hm)
    have hlater : ∀ fuel, k < fuel → rest.length ≤ turns fuel - 1 := fun fuel hfuel =>
      Nat.le_sub_one_of_lt (hturns fuel hfuel)
    refine (ih hmoved hrest hnodup hkey hk hlater).congr fun fuel hfuel => ?_
    obtain ⟨turn, hturn⟩ : ∃ turn, turns fuel = turn + 1 :=
      Nat.exists_eq_succ_of_ne_zero (Nat.ne_zero_of_lt (hturns fuel hfuel))
    rw [hturn, Nat.add_sub_cancel]
    apply h.moveChain_some hn hkeyn hm
    simp only [List.length_append] at hk
    omega

/-- Before the first cell is moved, the new buckets are empty. -/
theorem moving_nil :
    Moving t key [] { t with nodes := List.replicate (2 * t.nodes.length) none } where
  length_nodes := List.length_replicate
  length_heap := rfl
  buckets := buckets_empty
  value := fun _ => rfl
  next := fun _ _ => rfl

/-- All old chains. -/
theorem reshuffle_settles (h : Buckets t chain) (hkey : Keyed t key (cells t.nodes.length chain)) :
    Settles (cells t.nodes.length chain).length (fun fuel => reshuffle fuel t)
      (Moving t key (cells t.nodes.length chain)) := by
  apply Settles.foldlM (P := fun l => Moving t key (cells l.length chain)) moving_nil
  intro visited head later t' hnodes hmoving
  have hlen : visited.length + 1 ≤ t.nodes.length := by
    rw [hnodes, List.length_append, List.length_cons]
    omega
  have hhead : t.nodes[visited.length]? = some head := by
    rw [hnodes, List.getElem?_append_right Nat.le.refl, Nat.sub_self]
    rfl
  have hsub : (cells (visited.length + 1) chain).Sublist (cells t.nodes.length chain) :=
    cells_sublist hlen
  rw [List.length_append, List.length_singleton, cells_succ]
  rw [cells_succ] at hsub
  refine moveChain_settles hmoving (h.linked _ head hhead) (h.nodup.sublist hsub)
    (hkey.sublist hsub) hsub.length_le fun fuel hfuel => ?_
  have hchain : (chain visited.length).length ≤ (cells t.nodes.length chain).length :=
    length_le_cells (Nat.lt_of_succ_le hlen)
  omega

/-! ### What the reshuffle does -/

/-- The cells with value `v` in bucket `v` modulo the new length, each bucket in the order in
which the old array visits them. -/
def reshuffledChains (t : Table) (chain : ℕ → List ℕ) (pos : ℕ) : List ℕ :=
  (cells t.nodes.length chain).filter fun a =>
    (valueOf t.heap a).map (· % ((2 * t.nodes.length : ℕ) : ℤ)) = some (pos : ℤ)

/-- The table `t'` holds the cells of `t` in an array of twice the length. -/
structure Reshuffled (t : Table) (chain : ℕ → List ℕ) (t' : Table) : Prop where
  length_nodes : t'.nodes.length = 2 * t.nodes.length
  length_heap : t'.heap.length = t.heap.length
  value : ∀ a, valueOf t'.heap a = valueOf t.heap a
  buckets : Buckets t' (reshuffledChains t chain)
  perm : (cells t'.nodes.length (reshuffledChains t chain)).Perm (cells t.nodes.length chain)

section Spec

variable (h : Buckets t chain) (hnodes : 0 < t.nodes.length)
  (hnonneg : ∀ a ∈ cells t.nodes.length chain, ∀ v, valueOf t.heap a = some v → 0 ≤ v)

/-- The new bucket of a cell. -/
def keyOf (t : Table) (a : ℕ) : ℕ :=
  ((valueOf t.heap a).getD 0 % ((2 * t.nodes.length : ℕ) : ℤ)).toNat

include h in
theorem Buckets.exists_value {a : ℕ} (ha : a ∈ cells t.nodes.length chain) :
    ∃ v, valueOf t.heap a = some v := by
  obtain ⟨pos, hpos, ha⟩ := mem_cells.mp ha
  exact ⟨_, congrArg (Option.map Node.value) (List.getElem?_eq_getElem (h.lt_length_heap hpos ha))⟩

include h hnodes

theorem sortBy_keyOf :
    sortBy (keyOf t) (cells t.nodes.length chain) = reshuffledChains t chain := by
  funext pos
  apply List.filter_congr
  intro a ha
  obtain ⟨v, hv⟩ := h.exists_value ha
  have hmod : 0 ≤ v % ((2 * t.nodes.length : ℕ) : ℤ) := Int.emod_nonneg v (by omega)
  rw [keyOf, hv, Option.getD_some, Option.map_some]
  apply decide_eq_decide.mpr
  rw [Option.some_inj]
  omega

include hnonneg

theorem keyed_keyOf : Keyed t (keyOf t) (cells t.nodes.length chain) := by
  intro a ha
  obtain ⟨v, hv⟩ := h.exists_value ha
  refine ⟨v, hv, ?_⟩
  rw [index_of_nonneg (hnonneg a ha v hv) (by omega), keyOf, hv, Option.getD_some]

/-- The reshuffle loses nothing. -/
theorem reshuffle_reshuffles :
    Settles (cells t.nodes.length chain).length (fun fuel => reshuffle fuel t)
      (Reshuffled t chain) := by
  have hkeyed := keyed_keyOf h hnodes hnonneg
  have hsort := sortBy_keyOf h hnodes
  refine (reshuffle_settles h hkeyed).mono fun t' ht' => ?_
  have hperm : (cells t'.nodes.length (sortBy (keyOf t) (cells t.nodes.length chain))).Perm
      (cells t.nodes.length chain) := by
    rw [ht'.length_nodes]
    exact cells_sortBy_perm h.nodup hkeyed.lt
  exact ⟨ht'.length_nodes, ht'.length_heap, ht'.value, hsort ▸ ht'.buckets, hsort ▸ hperm⟩

end Spec

end SystemDev.Yak
