import Mathlib.Algebra.Group.Nat.Defs
import Mathlib.Data.Int.Notation
import Mathlib.Data.Nat.Notation
import Mathlib.Order.Lattice

/-!
# Left-leaning red-black trees

`RedBlackBST` keeps a symbol table in a binary search tree whose links are red or black. Methods on
nodes relink the tree in place and return the node that took the place of their argument. No node is
ever reachable twice, so a subtree is a value here and a method a function on subtrees.

The colour of a node is that of the link to it, and `true` is red. A null dereference is `none` in
the methods on nodes. They recurse into subtrees they have just rotated; such a recursion takes its
depth from a fuel, and running out of it is `none` too.

The count `N` of a node is an `int` in the source and a natural number here. The two agree while
the counts are below `2 ^ 31`, so for tables with fewer entries than that.
-/

namespace SystemDev.RedBlack

/-- `class Node`, with `null`. `n` is the `int N` of a table with fewer than `2 ^ 31` entries. -/
inductive Node (κ ν : Type)
  | null
  | node (key : κ) (val : ν) (left right : Node κ ν) (color : Bool) (n : ℕ)
  deriving DecidableEq

namespace Node

variable {κ ν : Type}

/-- `x == null`. -/
def isNull : Node κ ν → Bool
  | null => true
  | node .. => false

/-- `isRed`. -/
def isRed : Node κ ν → Bool
  | null => false
  | node _ _ _ _ color _ => color

/-- `size(Node)`. -/
def size : Node κ ν → ℕ
  | null => 0
  | node _ _ _ _ _ n => n

/-- `isRed(x.left)`. -/
def isRedLeft : Node κ ν → Option Bool
  | null => none
  | node _ _ left _ _ _ => some left.isRed

/-- The number of nodes, which bounds every recursion. -/
def count : Node κ ν → ℕ
  | null => 0
  | node _ _ left right _ _ => left.count + right.count + 1

section Fields

variable {key : κ} {val : ν} {left right : Node κ ν} {color : Bool} {n : ℕ}

@[simp] theorem isRed_node : (node key val left right color n).isRed = color := rfl

@[simp] theorem size_node : (node key val left right color n).size = n := rfl

@[simp] theorem isRedLeft_node :
    (node key val left right color n).isRedLeft = some left.isRed := rfl

end Fields

/-! ### Helper functions -/

/-- `x.color = color`. -/
def setColor (color : Bool) : Node κ ν → Option (Node κ ν)
  | null => none
  | node key val left right _ n => some (node key val left right color n)

/-- `h.N = size(h.left) + size(h.right) + 1`. -/
def setSize : Node κ ν → Option (Node κ ν)
  | null => none
  | node key val left right color _ =>
    some (node key val left right color (left.size + right.size + 1))

/-- `rotateRight`. -/
def rotateRight : Node κ ν → Option (Node κ ν)
  | node key val (node xKey xVal xLeft xRight _ _) right color n =>
    some (node xKey xVal xLeft
      (node key val xRight right true (xRight.size + right.size + 1)) color n)
  | _ => none

/-- `rotateLeft`. -/
def rotateLeft : Node κ ν → Option (Node κ ν)
  | node key val left (node xKey xVal xLeft xRight _ _) color n =>
    some (node xKey xVal
      (node key val left xLeft true (left.size + xLeft.size + 1)) xRight color n)
  | _ => none

/-- `flipColors`. -/
def flipColors : Node κ ν → Option (Node κ ν)
  | node key val (node lKey lVal ll lr lColor lN) (node rKey rVal rl rr rColor rN) color n =>
    some (node key val (node lKey lVal ll lr (!lColor) lN) (node rKey rVal rl rr (!rColor) rN)
      (!color) n)
  | _ => none

/-- `moveRedLeft`. -/
def moveRedLeft (h : Node κ ν) : Option (Node κ ν) :=
  h.flipColors.bind fun
    | null => none
    | node key val left right color n =>
      right.isRedLeft.bind fun
        | true => right.rotateRight.bind fun right' =>
            (node key val left right' color n).rotateLeft.bind flipColors
        | false => some (node key val left right color n)

/-- `moveRedRight`. -/
def moveRedRight (h : Node κ ν) : Option (Node κ ν) :=
  h.flipColors.bind fun
    | null => none
    | node key val left right color n =>
      left.isRedLeft.bind fun
        | true => (node key val left right color n).rotateRight.bind flipColors
        | false => some (node key val left right color n)

/-- The second and third repair of `balance` and `put`, and the new count. -/
def splitFour : Node κ ν → Option (Node κ ν)
  | null => none
  | node key val left right color n =>
    -- `h.left.left` is read only if `h.left` is red, so that it is there
    (if left.isRed && left.isRedLeft.getD false then
      (node key val left right color n).rotateRight
    else some (node key val left right color n)).bind fun
      | null => none
      | node key val left right color n =>
        (if left.isRed && right.isRed then (node key val left right color n).flipColors
        else some (node key val left right color n)).bind setSize

/-- `balance`. -/
def balance : Node κ ν → Option (Node κ ν)
  | null => none
  | node key val left right color n =>
    (if right.isRed then (node key val left right color n).rotateLeft
    else some (node key val left right color n)).bind splitFour

/-- The end of `put(Node, Key, Value)`: `balance` but for a node with two red children. -/
def fixUp : Node κ ν → Option (Node κ ν)
  | null => none
  | node key val left right color n =>
    (if right.isRed && !left.isRed then (node key val left right color n).rotateLeft
    else some (node key val left right color n)).bind splitFour

section Order

variable [LinearOrder κ]

/-! ### Search and insertion -/

/-- `get(Node, Key)`. -/
def get (key : κ) : Node κ ν → Option ν
  | null => none
  | node k v left right _ _ =>
    if key < k then left.get key else if k < key then right.get key else some v

/-- `put(Node, Key, Value)`. -/
def put (key : κ) (val : ν) : Node κ ν → Option (Node κ ν)
  | null => some (node key val null null true 1)
  | node k v left right color n =>
    if key < k then (left.put key val).bind fun left' => (node k v left' right color n).fixUp
    else if k < key then
      (right.put key val).bind fun right' => (node k v left right' color n).fixUp
    else (node k val left right color n).fixUp

/-! ### Deletion -/

/-- `min(Node)`: key and value of the node. -/
def min : Node κ ν → Option (κ × ν)
  | null => none
  | node k v left _ _ _ =>
    match left with
    | null => some (k, v)
    | node .. => left.min

/-- `max(Node)`. -/
def max : Node κ ν → Option (κ × ν)
  | null => none
  | node k v _ right _ _ =>
    match right with
    | null => some (k, v)
    | node .. => right.max

/-- `if (!isRed(h.left) && !isRed(h.left.left)) h = moveRedLeft(h)`. -/
def prepareLeft : Node κ ν → Option (Node κ ν)
  | null => none
  | node k v left right color n =>
    if left.isRed then some (node k v left right color n)
    else left.isRedLeft.bind fun
      | true => some (node k v left right color n)
      | false => (node k v left right color n).moveRedLeft

/-- `if (!isRed(h.right) && !isRed(h.right.left)) h = moveRedRight(h)`. -/
def prepareRight : Node κ ν → Option (Node κ ν)
  | null => none
  | node k v left right color n =>
    if right.isRed then some (node k v left right color n)
    else right.isRedLeft.bind fun
      | true => some (node k v left right color n)
      | false => (node k v left right color n).moveRedRight

/-- `if (isRed(h.left)) h = rotateRight(h)`. -/
def leanRight : Node κ ν → Option (Node κ ν)
  | null => none
  | node k v left right color n =>
    if left.isRed then (node k v left right color n).rotateRight
    else some (node k v left right color n)

/-- `deleteMin(Node)`. -/
def deleteMin : ℕ → Node κ ν → Option (Node κ ν)
  | 0, _ => none
  | _ + 1, null => none
  | _ + 1, node _ _ null _ _ _ => some null
  | fuel + 1, h => h.prepareLeft.bind fun
    | null => none
    | node k v left right color n =>
      (left.deleteMin fuel).bind fun left' => (node k v left' right color n).balance

/-- `deleteMax(Node)`. -/
def deleteMax : ℕ → Node κ ν → Option (Node κ ν)
  | 0, _ => none
  | fuel + 1, h => h.leanRight.bind fun
    | null => none
    | node _ _ _ null _ _ => some null
    | h => h.prepareRight.bind fun
      | null => none
      | node k v left right color n =>
        (right.deleteMax fuel).bind fun right' => (node k v left right' color n).balance

/-- The second half of `delete(Node, Key)`, behind the rotation. `again` is the recursive call. -/
def deleteRight (key : κ) (fuel : ℕ) (again : Node κ ν → Option (Node κ ν)) :
    Node κ ν → Option (Node κ ν)
  | null => none
  | node k v left right color n =>
    if key = k ∧ right.isNull then some null
    else (node k v left right color n).prepareRight.bind fun
      | null => none
      | node k v left right color n =>
        if key = k then
          right.min.bind fun x => (right.deleteMin fuel).bind fun right' =>
            (node x.1 x.2 left right' color n).balance
        else (again right).bind fun right' => (node k v left right' color n).balance

/-- `delete(Node, Key)`. -/
def delete (key : κ) : ℕ → Node κ ν → Option (Node κ ν)
  | 0, _ => none
  | _ + 1, null => none
  | fuel + 1, node k v left right color n =>
    if key < k then
      (node k v left right color n).prepareLeft.bind fun
        | null => none
        | node k v left right color n =>
          (left.delete key fuel).bind fun left' => (node k v left' right color n).balance
    else (node k v left right color n).leanRight.bind (deleteRight key fuel (delete key fuel))

/-! ### Ordered symbol table methods -/

/-- `height(Node)`. -/
def height : Node κ ν → ℤ
  | null => -1
  | node _ _ left right _ _ => 1 + Max.max left.height right.height

/-- `floor(Node, Key)`: the key of the node. -/
def floor (key : κ) : Node κ ν → Option κ
  | null => none
  | node k _ left right _ _ =>
    if key = k then some k
    else if key < k then left.floor key
    else some ((right.floor key).getD k)

/-- `ceiling(Node, Key)`. -/
def ceiling (key : κ) : Node κ ν → Option κ
  | null => none
  | node k _ left right _ _ =>
    if key = k then some k
    else if k < key then right.ceiling key
    else some ((left.ceiling key).getD k)

/-- `select(Node, int)`. -/
def select (k : ℕ) : Node κ ν → Option κ
  | null => none
  | node key _ left right _ _ =>
    if k < left.size then left.select k
    else if left.size < k then right.select (k - left.size - 1)
    else some key

/-- `rank(Key, Node)`. -/
def rank (key : κ) : Node κ ν → ℕ
  | null => 0
  | node k _ left right _ _ =>
    if key < k then left.rank key
    else if k < key then 1 + left.size + right.rank key
    else left.size

/-- `keys(Node, List, Key, Key)`: the queue afterwards. -/
def keys (lo hi : κ) : Node κ ν → List κ → List κ
  | null, queue => queue
  | node k _ left right _ _, queue =>
    let queue := if lo < k then left.keys lo hi queue else queue
    let queue := if lo ≤ k ∧ k ≤ hi then queue ++ [k] else queue
    if k < hi then right.keys lo hi queue else queue

/-! ### Integrity -/

/-- `isBST(Node, Key, Key)`. -/
def isBST : Node κ ν → Option κ → Option κ → Bool
  | null, _, _ => true
  | node k _ left right _ _, lo, hi =>
    if lo.any (k ≤ ·) then false
    else if hi.any (· ≤ k) then false
    else left.isBST lo (some k) && right.isBST (some k) hi

/-- `isSizeConsistent(Node)`. -/
def isSizeConsistent : Node κ ν → Bool
  | null => true
  | node _ _ left right _ n =>
    if n ≠ left.size + right.size + 1 then false
    else left.isSizeConsistent && right.isSizeConsistent

/-- `is23(Node)`; the root may be red with a red left child. -/
def is23 (atRoot : Bool) : Node κ ν → Bool
  | null => true
  | node _ _ left right color _ =>
    if right.isRed then false
    else if !atRoot && color && left.isRed then false
    else left.is23 false && right.is23 false

/-- The black links on the path to the minimum. -/
def blackLinks : Node κ ν → ℕ
  | null => 0
  | node _ _ left _ color _ => (if color then 0 else 1) + left.blackLinks

/-- `isBalanced(Node, int)`. -/
def isBalanced : Node κ ν → ℤ → Bool
  | null, black => black = 0
  | node _ _ left right color _, black =>
    let black := if color then black else black - 1
    left.isBalanced black && right.isBalanced black

end Order

end Node

end SystemDev.RedBlack
