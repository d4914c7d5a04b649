import Mathlib.Algebra.BigOperators.Group.List.Basic
import Mathlib.Algebra.GroupWithZero.Nat
import SystemDev.Instrument.Scanner

/-!
# Method descriptors of the Java virtual machine

The grammar that the scanner of the hook reads, as a syntax tree with its encoding, and
what an inserted prologue should do for a method with given parameters: load the first
references from their local-variable slots, fill up with nulls, push how many there are
and call the prefetch method.

Class names are any nonempty byte strings without `;`. The format of class files excludes
a few more bytes, which the scanner does not look at.

## Main definitions

* `FieldType` — the types of parameters
* `encodeDescriptor` — the descriptor of a method
* `referenceSlots` — where the reference parameters live
* `expectedPrologue` — what should be inserted
-/

namespace SystemDev.Instrument

/-- The base types of the descriptor grammar. -/
inductive BaseType
  | byte
  | char
  | double
  | float
  | int
  | long
  | short
  | boolean
  deriving DecidableEq

/-- The term of a base type in a descriptor. -/
def BaseType.symbol : BaseType → UInt8
  | byte => ascii 'B'
  | char => ascii 'C'
  | double => ascii 'D'
  | float => ascii 'F'
  | int => ascii 'I'
  | long => ascii 'J'
  | short => ascii 'S'
  | boolean => ascii 'Z'

/-- The local-variable slots of a value of a base type. -/
def BaseType.slots : BaseType → ℕ
  | double => 2
  | long => 2
  | _ => 1

/-- The name of a class inside a descriptor. -/
structure ClassName where
  bytes : List UInt8
  nonempty : bytes ≠ []
  closed : ascii ';' ∉ bytes

/-- A field descriptor. -/
inductive FieldType
  | base (type : BaseType)
  | object (name : ClassName)
  | array (component : FieldType)

namespace FieldType

/-- The bytes of a field descriptor. -/
def encode : FieldType → List UInt8
  | base type => [type.symbol]
  | object name => ascii 'L' :: (name.bytes ++ [ascii ';'])
  | array component => ascii '[' :: component.encode

/-- An object, or an array whose innermost elements are objects. -/
def refersToObjects : FieldType → Bool
  | base _ => false
  | object _ => true
  | array component => component.refersToObjects

/-- The local-variable slots of a parameter: two for `J` and `D` alone, also one for
every array. -/
def slots : FieldType → ℕ
  | base type => type.slots
  | _ => 1

end FieldType

/-- The descriptor of a method; `returned` is the descriptor of its result. -/
def encodeDescriptor (params : List FieldType) (returned : List UInt8) : List UInt8 :=
  ascii '(' :: (params.flatMap FieldType.encode ++ ascii ')' :: returned)

/-- The slots of all parameters. -/
def totalSlots (params : List FieldType) : ℕ :=
  (params.map FieldType.slots).sum

/-- The first slot of parameter `j`; the parameters start at slot `first`. -/
def slot (first : ℕ) (params : List FieldType) (j : ℕ) : ℕ :=
  first + totalSlots (params.take j)

/-- The positions of the parameters that refer to objects. -/
def references (params : List FieldType) : List ℕ :=
  (List.range params.length).filter fun j => params[j]?.any FieldType.refersToObjects

/-- The slots of the parameters that refer to objects. -/
def referenceSlots (first : ℕ) (params : List FieldType) : List ℕ :=
  (references params).map (slot first params)

/-- What an instruction of a prologue does to the operand stack. -/
inductive Effect
  | loadReference (slot : ℕ)
  | pushNull
  | pushInt (value : ℤ)
  | callStatic (index : BitVec 16)
  | unknown
  deriving DecidableEq

/-- The effect of an instruction. -/
def Instruction.effect : Instruction → Effect
  | aload0 => .loadReference 0
  | aload1 => .loadReference 1
  | aload2 => .loadReference 2
  | aload3 => .loadReference 3
  | aload index => .loadReference index.toNat
  | aconstNull => .pushNull
  | sipush value => .pushInt value.toInt
  | invokestatic index => .callStatic index
  | other _ => .unknown

/-- The effects that the prologue of a method should have. -/
def expectedPrologue (prefetchMethodIndex : BitVec 16) (first : ℕ) (params : List FieldType) :
    List Effect :=
  let found := min 5 (references params).length
  if references params = [] then []
  else
    ((referenceSlots first params).take found).map .loadReference ++
      List.replicate (5 - found) .pushNull ++
      [.pushInt found, .callStatic prefetchMethodIndex]

@[simp]
theorem totalSlots_cons (t : FieldType) (params : List FieldType) :
    totalSlots (t :: params) = t.slots + totalSlots params := by
  simp [totalSlots]

@[simp]
theorem referenceSlots_nil (first : ℕ) : referenceSlots first [] = [] := rfl

theorem length_referenceSlots (first : ℕ) (params : List FieldType) :
    (referenceSlots first params).length = (references params).length :=
  List.length_map _

/-- Behind a parameter the positions shift by one. -/
theorem references_cons (t : FieldType) (params : List FieldType) :
    references (t :: params) =
      if t.refersToObjects then 0 :: (references params).map (· + 1)
      else (references params).map (· + 1) := by
  have htail : ((List.range params.length).map (· + 1)).filter
      (fun j => (t :: params)[j]?.any FieldType.refersToObjects) =
      (references params).map (· + 1) := by
    rw [List.filter_map, references]
    rfl
  rw [references, List.length_cons, List.range_succ_eq_map, List.filter_cons]
  -- position 0 is the first parameter, the others are the positions of the rest
  change (if t.refersToObjects then _ else _) = _
  rw [← htail]

/-- Behind a parameter the slots start at its end. -/
theorem referenceSlots_cons (first : ℕ) (t : FieldType) (params : List FieldType) :
    referenceSlots first (t :: params) =
      if t.refersToObjects then first :: referenceSlots (first + t.slots) params
      else referenceSlots (first + t.slots) params := by
  have hslot : (slot first (t :: params)) ∘ (· + 1) = slot (first + t.slots) params := by
    funext j
    simp [slot, Nat.add_assoc]
  rw [referenceSlots, references_cons]
  split
  · rw [List.map_cons, List.map_map, hslot]
    rfl
  · rw [List.map_map, hslot]
    rfl

theorem FieldType.length_encode_pos (t : FieldType) : 0 < t.encode.length := by
  cases t <;> simp [encode]

end SystemDev.Instrument
