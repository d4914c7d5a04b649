import SystemDev.RedBlack.Node

/-!
# The symbol table

The public methods of `RedBlackBST`. Keys and values may be null references; a method that throws
before it has changed anything leaves the table as it was.
-/

namespace SystemDev.RedBlack

/-- What the methods throw. -/
inductive Thrown
  | nullPointer
  | noSuchElement
  | illegalArgument
  deriving DecidableEq

/-- A dereferenced pointer. -/
def deref {α : Type} : Option α → Except Thrown α
  | none => .error .nullPointer
  | some a => .ok a

section Exceptions

variable {α β : Type} {a : α} {e : Thrown} {f : α → Except Thrown β}

@[simp] theorem deref_none : deref (none : Option α) = .error .nullPointer := rfl

@[simp] theorem deref_some : deref (some a) = .ok a := rfl

@[simp] theorem ok_bind : (Except.ok a >>= f) = f a := rfl

@[simp] theorem error_bind : (Except.error e >>= f) = .error e := rfl

@[simp] theorem pure_eq_ok : (pure a : Except Thrown α) = .ok a := rfl

end Exceptions

/-- `class RedBlackBST`. -/
structure RedBlackBST (κ ν : Type) where
  root : Node κ ν
  deriving DecidableEq

namespace RedBlackBST

variable {κ ν : Type}

/-- `new RedBlackBST()`. -/
def new : RedBlackBST κ ν := ⟨.null⟩

/-- `size()`. -/
def size (t : RedBlackBST κ ν) : ℕ := t.root.size

/-- `isEmpty()`. -/
def isEmpty (t : RedBlackBST κ ν) : Bool := t.root.isNull

/-- `if (!isRed(root.left) && !isRed(root.right)) root.color = RED`. -/
def reddenRoot : Node κ ν → Except Thrown (Node κ ν)
  | .null => .error .nullPointer
  | .node key val left right color n =>
    .ok (.node key val left right (if !left.isRed && !right.isRed then true else color) n)

/-- `if (!isEmpty()) root.color = BLACK`. -/
def blackenRoot : Node κ ν → Node κ ν
  | .null => .null
  | .node key val left right _ n => .node key val left right false n

variable [LinearOrder κ]

/-- `get(Key)`. -/
def get (t : RedBlackBST κ ν) (key : Option κ) : Except Thrown (Option ν) := do
  let key ← deref key
  return t.root.get key

/-- `contains(Key)`. -/
def contains (t : RedBlackBST κ ν) (key : Option κ) : Except Thrown Bool := do
  return (← t.get key).isSome

/-- `delete(Key)`. -/
def delete (t : RedBlackBST κ ν) (key : Option κ) : Except Thrown (RedBlackBST κ ν) := do
  let k ← deref key
  if ← t.contains key then
    let root ← reddenRoot t.root
    let root ← deref (root.delete k root.count)
    return ⟨blackenRoot root⟩
  else return t

/-- `put(Key, Value)`. -/
def put (t : RedBlackBST κ ν) (key : Option κ) (val : Option ν) :
    Except Thrown (RedBlackBST κ ν) := do
  let k ← deref key
  match val with
  | none => t.delete key
  | some v =>
    let root ← deref (t.root.put k v)
    let root ← deref (root.setColor false)
    return ⟨root⟩

/-- `deleteMin()`. -/
def deleteMin (t : RedBlackBST κ ν) : Except Thrown (RedBlackBST κ ν) :=
  if t.isEmpty then .error .noSuchElement
  else do
    let root ← reddenRoot t.root
    let root ← deref (root.deleteMin root.count)
    return ⟨blackenRoot root⟩

/-- `deleteMax()`. -/
def deleteMax (t : RedBlackBST κ ν) : Except Thrown (RedBlackBST κ ν) :=
  if t.isEmpty then .error .noSuchElement
  else do
    let root ← reddenRoot t.root
    let root ← deref (root.deleteMax root.count)
    return ⟨blackenRoot root⟩

/-- `height()`. -/
def height (t : RedBlackBST κ ν) : ℤ := t.root.height

/-- `min()`. -/
def min (t : RedBlackBST κ ν) : Except Thrown κ :=
  if t.isEmpty then .error .noSuchElement
  else do
    let x ← deref t.root.min
    return x.1

/-- `max()`. -/
def max (t : RedBlackBST κ ν) : Except Thrown κ :=
  if t.isEmpty then .error .noSuchElement
  else do
    let x ← deref t.root.max
    return x.1

/-- `floor(Key)`, which returns null if there is no such key. -/
def floor (t : RedBlackBST κ ν) (key : Option κ) : Except Thrown (Option κ) := do
  let key ← deref key
  if t.isEmpty then .error .noSuchElement else return t.root.floor key

/-- `ceiling(Key)`. -/
def ceiling (t : RedBlackBST κ ν) (key : Option κ) : Except Thrown (Option κ) := do
  let key ← deref key
  if t.isEmpty then .error .noSuchElement else return t.root.ceiling key

/-- `select(int)`. -/
def select (t : RedBlackBST κ ν) (k : ℤ) : Except Thrown κ :=
  if k < 0 ∨ (t.size : ℤ) ≤ k then .error .illegalArgument else deref (t.root.select k.toNat)

/-- `rank(Key)`. -/
def rank (t : RedBlackBST κ ν) (key : Option κ) : Except Thrown ℕ := do
  let key ← deref key
  return t.root.rank key

/-- `keys(Key, Key)`. -/
def keysBetween (t : RedBlackBST κ ν) (lo hi : Option κ) : Except Thrown (List κ) := do
  let lo ← deref lo
  let hi ← deref hi
  return t.root.keys lo hi []

/-- `keys()`. -/
def keys (t : RedBlackBST κ ν) : Except Thrown (List κ) :=
  if t.isEmpty then .ok []
  else do
    let lo ← t.min
    let hi ← t.max
    t.keysBetween (some lo) (some hi)

/-- `size(Key, Key)`. -/
def sizeBetween (t : RedBlackBST κ ν) (lo hi : Option κ) : Except Thrown ℤ := do
  let l ← deref lo
  let h ← deref hi
  if h < l then return 0
  let found ← t.contains hi
  let below ← t.rank hi
  let before ← t.rank lo
  if found then return below - before + 1 else return below - before

/-! ### Integrity -/

/-- `isRankConsistent()`. -/
def isRankConsistent (t : RedBlackBST κ ν) : Except Thrown Bool := do
  let ranks ← (List.range t.size).allM fun (i : ℕ) => do
    let key ← t.select i
    return i = (← t.rank (some key))
  if !ranks then return false
  let keys ← t.keys
  keys.allM fun key => do
    let rank ← t.rank (some key)
    return key = (← t.select rank)

/-- `check()`: every test is made, and the table passes if all of them succeed. -/
def check (t : RedBlackBST κ ν) : Except Thrown Bool := do
  let rankConsistent ← t.isRankConsistent
  return t.root.isBST none none && t.root.isSizeConsistent && rankConsistent &&
    t.root.is23 true && t.root.isBalanced t.root.blackLinks

/-! ### Programs -/

end RedBlackBST

/-- A call of a public method. -/
inductive Call (κ ν : Type)
  | put (key : Option κ) (val : Option ν)
  | delete (key : Option κ)
  | deleteMin
  | deleteMax
  | get (key : Option κ)
  | contains (key : Option κ)
  | size
  | isEmpty
  | min
  | max
  | floor (key : Option κ)
  | ceiling (key : Option κ)
  | select (k : ℤ)
  | rank (key : Option κ)
  | keys
  | keysBetween (lo hi : Option κ)
  | sizeBetween (lo hi : Option κ)

/-- The calls that may add an entry. -/
def Call.isPut {κ ν : Type} : Call κ ν → Bool
  | .put _ _ => true
  | _ => false

/-- What the caller gets. -/
inductive Answer (κ ν : Type)
  | thrown (e : Thrown)
  | done
  | value (val : Option ν)
  | key (key : Option κ)
  | flag (b : Bool)
  | number (i : ℤ)
  | keys (keys : List κ)
  deriving DecidableEq

/-- The answer of a method that returns. -/
def answer {α κ ν : Type} (f : α → Answer κ ν) : Except Thrown α → Answer κ ν
  | .error e => .thrown e
  | .ok a => f a

namespace RedBlackBST

variable {κ ν : Type}

/-- The table after a method that changes it; one that throws has not changed anything yet. Inside a
deletion a null dereference would find the tree half relinked, but none can be reached. -/
def update (t : RedBlackBST κ ν) :
    Except Thrown (RedBlackBST κ ν) → RedBlackBST κ ν × Answer κ ν
  | .error e => (t, .thrown e)
  | .ok t' => (t', .done)

variable [LinearOrder κ]

/-- Make a call. -/
def call (t : RedBlackBST κ ν) : Call κ ν → RedBlackBST κ ν × Answer κ ν
  | .put key val => t.update (t.put key val)
  | .delete key => t.update (t.delete key)
  | .deleteMin => t.update t.deleteMin
  | .deleteMax => t.update t.deleteMax
  | .get key => (t, answer .value (t.get key))
  | .contains key => (t, answer .flag (t.contains key))
  | .size => (t, .number t.size)
  | .isEmpty => (t, .flag t.isEmpty)
  | .min => (t, answer (fun k => .key (some k)) t.min)
  | .max => (t, answer (fun k => .key (some k)) t.max)
  | .floor key => (t, answer .key (t.floor key))
  | .ceiling key => (t, answer .key (t.ceiling key))
  | .select k => (t, answer (fun k => .key (some k)) (t.select k))
  | .rank key => (t, answer (fun (n : ℕ) => .number n) (t.rank key))
  | .keys => (t, answer .keys t.keys)
  | .keysBetween lo hi => (t, answer .keys (t.keysBetween lo hi))
  | .sizeBetween lo hi => (t, answer .number (t.sizeBetween lo hi))

/-- The table after the calls in order, from an empty one. -/
def run (calls : List (Call κ ν)) : RedBlackBST κ ν :=
  calls.foldl (fun t c => (t.call c).1) new

end RedBlackBST

end SystemDev.RedBlack
