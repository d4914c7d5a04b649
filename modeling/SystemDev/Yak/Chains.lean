import SystemDev.Yak.Buckets
import SystemDev.Library.Fuel

/-!
# The chains of the buckets

`Buckets t chain` gives every bucket the list of its cells: each chain ends, and no cell is on
two chains or twice on one. The order of the cells in a bucket is the order of the list.

## Main results

* `Buckets.append_eq` — the walk to the tail ends, and what is linked then
* `Buckets.link` — the cell linked there is the new last one of its bucket
-/

namespace SystemDev.Yak

open SystemDev.Library

variable {t : Table} {chain : ℕ → List ℕ} {pos n a : ℕ}

/-- Bucket `pos` is the chain of the cells `chain pos`, and the chains are disjoint. -/
structure Buckets (t : Table) (chain : ℕ → List ℕ) : Prop where
  linked : ∀ pos head, t.nodes[pos]? = some head → Linked (nextOf t.heap) head (chain pos)
  nodup : (cells t.nodes.length chain).Nodup

/-- A new array. -/
theorem buckets_empty {heap : List Node} :
    Buckets ⟨heap, List.replicate n none⟩ fun _ => [] where
  linked := by
    intro pos head hhead
    exact (List.mem_replicate.mp (List.mem_of_getElem? hhead)).2
  nodup := by
    rw [cells_empty]
    exact List.nodup_nil

/-- The table once `n` is linked behind `last`, which is null for an empty bucket. -/
def Table.linkBehind (t : Table) (pos n : ℕ) : Option ℕ → Table
  | none => { t with nodes := t.nodes.set pos (some n) }
  | some last => { t with heap := setNext t.heap last (some n) }

section LinkBehind

variable {last : Option ℕ}

@[simp] theorem length_nodes_linkBehind :
    (t.linkBehind pos n last).nodes.length = t.nodes.length := by
  cases last with
  | none => exact List.length_set
  | some last => rfl

@[simp] theorem length_heap_linkBehind :
    (t.linkBehind pos n last).heap.length = t.heap.length := by
  cases last with
  | none => rfl
  | some last => exact length_setNext

@[simp] theorem valueOf_linkBehind :
    valueOf (t.linkBehind pos n last).heap a = valueOf t.heap a := by
  cases last with
  | none => rfl
  | some last => exact valueOf_setNext

theorem nextOf_linkBehind (ha : ∀ b, last = some b → a ≠ b) :
    nextOf (t.linkBehind pos n last).heap a = nextOf t.heap a := by
  cases last with
  | none => rfl
  | some last => exact nextOf_setNext_of_ne (ha last rfl)

theorem nodes_linkBehind_of_ne {q : ℕ} (hq : q ≠ pos) :
    (t.linkBehind pos n last).nodes[q]? = t.nodes[q]? := by
  cases last with
  | none => exact List.getElem?_set_ne (Ne.symm hq)
  | some last => rfl

end LinkBehind

namespace Buckets

variable (h : Buckets t chain)

include h

theorem lt_length_heap (hpos : pos < t.nodes.length) (ha : a ∈ chain pos) : a < t.heap.length := by
  obtain ⟨m, hm⟩ := (h.linked pos _ (List.getElem?_eq_getElem hpos)).exists_next ha
  exact lt_length_of_nextOf hm

/-- The shape depends on the links of the cells on the chains only. -/
theorem congr {heap : List Node}
    (heq : ∀ a ∈ cells t.nodes.length chain, nextOf heap a = nextOf t.heap a) :
    Buckets ⟨heap, t.nodes⟩ chain where
  linked := by
    intro pos head hhead
    refine (h.linked pos head hhead).congr fun a ha => heq a (mem_cells.mpr ⟨pos, ?_, ha⟩)
    exact (List.getElem?_eq_some_iff.mp hhead).1
  nodup := h.nodup

/-- The walk to the tail ends at the last cell. -/
theorem append_eq (hpos : pos < t.nodes.length) {fuel : ℕ} (hfuel : (chain pos).length < fuel) :
    t.append fuel pos n = some (t.linkBehind pos n (chain pos).getLast?) := by
  have hlinked := h.linked pos _ (List.getElem?_eq_getElem hpos)
  rw [Table.append, List.getElem?_eq_getElem hpos, Option.bind_some]
  cases hlast : (chain pos).getLast? with
  | none =>
    rw [List.getLast?_eq_none_iff.mp hlast] at hlinked
    rw [hlinked.head_eq_none_iff.mpr rfl]
    rfl
  | some last =>
    obtain ⟨l, hl⟩ := List.getLast?_eq_some_iff.mp hlast
    rw [hl] at hlinked hfuel
    cases hhead : t.nodes[pos] with
    | none => exact absurd (hlinked.head_eq_none_iff.mp hhead) (by simp)
    | some head =>
      rw [hhead] at hlinked
      rw [List.length_append] at hfuel
      have hwalk : lastCell (nextOf t.heap) fuel head = some last :=
        hlinked.lastCell_eq (by omega)
      dsimp only
      rw [hwalk]
      rfl

section Link

variable (hpos : pos < t.nodes.length) (hn : n ∉ cells t.nodes.length chain) {heap : List Node}
  (heq : ∀ a ≠ n, nextOf heap a = nextOf (t.linkBehind pos n (chain pos).getLast?).heap a)

include hpos hn heq

/-- The bucket that gets the cell. -/
theorem linked_pos (hnext : nextOf heap n = some none) {head : Option ℕ}
    (hhead : (t.linkBehind pos n (chain pos).getLast?).nodes[pos]? = some head) :
    Linked (nextOf heap) head (chain pos ++ [n]) := by
  cases hlast : (chain pos).getLast? with
  | none =>
    rw [hlast, Table.linkBehind, List.getElem?_set_self hpos] at hhead
    rw [List.getLast?_eq_none_iff.mp hlast, ← Option.some_inj.mp hhead]
    exact linked_singleton hnext
  | some last =>
    obtain ⟨l, hl⟩ := List.getLast?_eq_some_iff.mp hlast
    rw [hlast, Table.linkBehind] at hhead heq
    have hlinked := h.linked pos head hhead
    have hnodup := nodup_of_cells h.nodup hpos
    have hmem : last ∈ chain pos := List.mem_of_getLast? hlast
    rw [hl] at hlinked hnodup ⊢
    refine hlinked.snoc (fun c hc => ?_) ?_ hnext
    · have hcpos : c ∈ chain pos := by
        rw [hl]
        exact List.mem_append_left _ hc
      have hclast : c ≠ last := by
        rintro rfl
        exact List.disjoint_of_nodup_append hnodup hc (List.mem_singleton_self c)
      rw [heq c (ne_of_not_mem_cells hn hpos hcpos), nextOf_setNext_of_ne hclast]
    · rw [heq last (ne_of_not_mem_cells hn hpos hmem)]
      exact nextOf_setNext_self (h.lt_length_heap hpos hmem)

/-- The other buckets. -/
theorem linked_of_ne {q : ℕ} (hq : q ≠ pos) {head : Option ℕ}
    (hhead : (t.linkBehind pos n (chain pos).getLast?).nodes[q]? = some head) :
    Linked (nextOf heap) head (chain q) := by
  rw [nodes_linkBehind_of_ne hq] at hhead
  have hlt : q < t.nodes.length := (List.getElem?_eq_some_iff.mp hhead).1
  refine (h.linked q head hhead).congr fun a ha => ?_
  rw [heq a (ne_of_not_mem_cells hn hlt ha), nextOf_linkBehind]
  rintro b hb rfl
  exact hq (eq_of_mem_chain h.nodup hlt hpos ha (List.mem_of_getLast? hb))

/-- The new cell, once its own link is null, is the last one of its bucket. `heap` may give it a
link that the table did not have. -/
theorem link (hnext : nextOf heap n = some none) :
    Buckets ⟨heap, (t.linkBehind pos n (chain pos).getLast?).nodes⟩ (snocAt chain pos n) where
  linked := by
    intro q head hhead
    by_cases hq : q = pos
    · subst hq
      rw [snocAt, Function.update_self]
      exact h.linked_pos hpos hn heq hnext hhead
    · rw [snocAt, Function.update_of_ne hq]
      exact h.linked_of_ne hpos hn heq hq hhead
  nodup := by
    have hperm : (cells t.nodes.length (snocAt chain pos n)).Perm
        (n :: cells t.nodes.length chain) := cells_snocAt_perm hpos
    rw [length_nodes_linkBehind]
    exact hperm.nodup_iff.mpr (List.nodup_cons.mpr ⟨hn, h.nodup⟩)

end Link

end Buckets

end SystemDev.Yak
