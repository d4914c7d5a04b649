import Mathlib.Algebra.Group.Nat.Defs
import Mathlib.Data.Int.Basic
import SystemDev.Library.Chain

/-!
# The bucket table of the region tests

`Case25.region_loop` keeps nodes in an array of buckets, each a chain linked through `next`.
Nodes are only ever put behind the last one of a bucket, found by walking the chain. Every other
iteration moves all nodes to an array of twice the length by relinking them in place, while the
old chain is still being walked. `Case32.run` has the same code.

Nodes are cells on a heap, numbered in the order of creation. Loops over chains take their turns
from a fuel; a chain that does not end needs more than any. A null dereference, an index outside
an array and a negative array size are `none`.
-/

namespace SystemDev.Yak

open SystemDev.Library

/-- `class Node`. -/
structure Node where
  value : ℤ
  next : Option ℕ
  deriving DecidableEq

/-- The nodes created so far and the current array of buckets. -/
structure Table where
  heap : List Node
  nodes : List (Option ℕ)
  deriving DecidableEq

/-- `a.next`. -/
def nextOf (heap : List Node) (a : ℕ) : Option (Option ℕ) := heap[a]?.map Node.next

/-- `a.value`. -/
def valueOf (heap : List Node) (a : ℕ) : Option ℤ := heap[a]?.map Node.value

/-- `a.next = n`. -/
def setNext (heap : List Node) (a : ℕ) (n : Option ℕ) : List Node :=
  heap.modify a fun node => { node with next := n }

/-- `v % length` as an index. -/
def index (v : ℤ) (length : ℕ) : Option ℕ :=
  if length = 0 ∨ v.tmod length < 0 then none else some (v.tmod length).toNat

/-- Put a node behind the last one of a bucket:
`if (ntail == null) nodes[pos] = n; else { walk to the tail; ntail.next = n; }`. -/
def Table.append (fuel : ℕ) (t : Table) (pos n : ℕ) : Option Table :=
  t.nodes[pos]?.bind fun
    | none => some { t with nodes := t.nodes.set pos (some n) }
    | some head => (lastCell (nextOf t.heap) fuel head).map fun ntail =>
        { t with heap := setNext t.heap ntail (some n) }

/-- `new Node(v)` at the end of a bucket. -/
def Table.insert (fuel : ℕ) (t : Table) (pos : ℕ) (v : ℤ) : Option Table :=
  Table.append fuel { t with heap := t.heap ++ [⟨v, none⟩] } pos t.heap.length

/-! ### Initial buckets -/

/-- One turn of the loop that builds a chain: `prev` is the node created last. -/
def chainTurn (s : Table × ℕ) (j : ℕ) : Table × ℕ :=
  let n := s.1.heap.length
  ({ s.1 with heap := setNext (s.1.heap ++ [⟨(j : ℤ) * 25, none⟩]) s.2 (some n) }, n)

/-- One turn of the loop over the buckets. -/
def initBucket (t : Table) (i : ℕ) : Table :=
  let head := t.heap.length
  let t' : Table := { heap := t.heap ++ [⟨i, none⟩], nodes := t.nodes.set i (some head) }
  ((List.range 30).foldl chainTurn (t', head)).1

/-- The table before the first iteration. -/
def initTable : Table := (List.range 10).foldl initBucket ⟨[], List.replicate 10 none⟩

/-! ### Reshuffling -/

/-- The loop over one old chain, from the node `n` on. `t` holds the new array. -/
def moveChain (fuel : ℕ) : ℕ → Table → Option ℕ → Option Table
  | _, t, none => some t
  | 0, _, some _ => none
  | turns + 1, t, some n =>
    -- `next` is read before the node is linked into its new chain
    t.heap[n]?.bind fun node =>
      (index node.value t.nodes.length).bind fun newPos =>
        (t.append fuel newPos n).bind fun t' =>
          moveChain fuel turns { t' with heap := setNext t'.heap n none } node.next

/-- The reshuffle loop: every chain of the old array, in order, into an array of twice the
length. -/
def reshuffle (fuel : ℕ) (t : Table) : Option Table :=
  t.nodes.foldlM (moveChain fuel fuel) { t with nodes := List.replicate (2 * t.nodes.length) none }

/-! ### Iterations -/

/-- One turn of the first insertion loop. -/
def insertTurn (fuel : ℕ) (t : Table) (i : ℕ) : Option Table :=
  (index (i * 156) t.nodes.length).bind fun pos => t.insert fuel pos i

/-- One turn of the second insertion loop, which reads `ntail.next` before it tests `ntail`. -/
def insertTurnUnchecked (fuel : ℕ) (t : Table) (i : ℕ) : Option Table :=
  (index (i * 156) t.nodes.length).bind fun pos =>
    t.nodes[pos]?.bind fun
      | none => none
      | some _ => t.insert fuel pos i

/-- One iteration, with the value of `count` inside it. -/
def iteration (fuel : ℕ) (t : Table) (count : ℕ) : Option Table :=
  (if count % 2 = 0 then
    if 2 * t.nodes.length < 2 ^ 31 then reshuffle fuel t else none
  else some t).bind fun t₁ =>
    ((List.range 10).foldlM (insertTurn fuel) t₁).bind fun t₂ =>
      (List.range 10).foldlM (insertTurnUnchecked fuel) t₂

/-- The table after `loopNum` iterations. -/
def bucketLoop (fuel : ℕ) (loopNum : ℤ) : Option Table :=
  (List.range loopNum.toNat).foldlM (fun t c => iteration fuel t (c + 1)) initTable

/-- `Case25.region_loop`. -/
def Case25.regionLoop : ℕ → ℤ → Option Table := bucketLoop

/-- `Case32.run`. -/
def Case32.run : ℕ → ℤ → Option Table := bucketLoop

/-! ### Cells -/

section Heap

variable {heap : List Node} {a b : ℕ} {n : Option ℕ}

@[simp] theorem length_setNext : (setNext heap a n).length = heap.length := by
  simp [setNext]

@[simp] theorem valueOf_setNext : valueOf (setNext heap a n) b = valueOf heap b := by
  rw [valueOf, setNext, List.getElem?_modify, valueOf]
  cases heap[b]? with
  | none => rfl
  | some node => by_cases hab : a = b <;> simp [hab]

theorem nextOf_setNext_of_ne (h : b ≠ a) : nextOf (setNext heap a n) b = nextOf heap b := by
  rw [nextOf, setNext, List.getElem?_modify_ne _ _ (Ne.symm h), nextOf]

theorem nextOf_setNext_self (h : a < heap.length) : nextOf (setNext heap a n) a = some n := by
  rw [nextOf, setNext, List.getElem?_modify_eq, List.getElem?_eq_getElem h]
  rfl

theorem lt_length_of_nextOf {m : Option ℕ} (h : nextOf heap a = some m) : a < heap.length := by
  obtain ⟨node, hnode, -⟩ := Option.map_eq_some_iff.mp h
  exact (List.getElem?_eq_some_iff.mp hnode).1

end Heap

end SystemDev.Yak
