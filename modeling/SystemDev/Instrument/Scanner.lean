import SystemDev.Library.Cursor

/-!
# The class-file hook and its descriptor scanner

`ClassFileLoadHook` puts a call to a prefetch method in front of every method that takes
references. It finds the reference parameters with a scanner over the method descriptor:
one index moves through the bytes, two helpers move it further through arrays and class
names, and a counter follows the local-variable slot of the next parameter.

A read outside the descriptor is `none`. The rescribo library is outside the repository;
of its front inserter the model keeps that the inserted instructions stand in call order
before the instructions of the method.

## Main results

* `le_of_scanBody` — no turn of the scan moves its index back
-/

namespace SystemDev.Instrument

open SystemDev.Library

/-- `PARAM_NUM`. -/
def paramNum : ℕ := 5

/-- The byte of an ASCII character. -/
def ascii (c : Char) : UInt8 := c.toUInt8

/-- The instructions the hook inserts, and `other` for those a method has of its own. -/
inductive Instruction
  | aload0
  | aload1
  | aload2
  | aload3
  | aload (index : UInt8)
  | aconstNull
  | sipush (value : BitVec 16)
  | invokestatic (index : BitVec 16)
  | other (bytes : List UInt8)
  deriving DecidableEq

/-- The local variables of the scan: the descriptor index, the slot of the next
parameter, the number of references found and the instructions inserted so far. -/
structure ScanState where
  i : ℕ
  paramCount : UInt8
  insertedObjRefCount : ℕ
  inserted : List Instruction
  deriving DecidableEq

/-- `is_primive_type`. -/
def isPrimiveType (data : List UInt8) (i : ℕ) : Option Bool :=
  data[i]?.map fun c => (['S', 'I', 'F', 'Z', 'B', 'C', 'J', 'D'].map ascii).contains c

/-- `parse_object_array`: the new index, and whether the array is one of objects. -/
def parseObjectArray (data : List UInt8) (i : ℕ) : Option (ℕ × Bool) := do
  let j ← advance (· == ascii '[') data i
  -- an array of base types ends here, on the symbol
  if ← isPrimiveType data j then
    return (j, false)
  let k ← advance (· != ascii ';') data j
  return (k, true)

/-- `parse_object_instance`. The `L` is consumed before the loop consumes a byte more. -/
def parseObjectInstance (data : List UInt8) (i : ℕ) : Option ℕ :=
  advance (· != ascii ';') data (i + 1)

/-- `insert_reference_load_instruction`; the slot is computed in eight bits. -/
def referenceLoadInstruction (paramCount nonStaticLocalValOffset : UInt8) : Instruction :=
  let localValIndex := paramCount + nonStaticLocalValOffset
  if localValIndex = 0 then .aload0
  else if localValIndex = 1 then .aload1
  else if localValIndex = 2 then .aload2
  else if localValIndex = 3 then .aload3
  else .aload localValIndex

/-- One inserted load, counted. -/
def ScanState.insertReferenceLoad (s : ScanState) (offset : UInt8) : ScanState :=
  { s with
    insertedObjRefCount := s.insertedObjRefCount + 1
    inserted := s.inserted ++ [referenceLoadInstruction s.paramCount offset] }

/-- The slots that the chain of primitive tests adds for a symbol. -/
def primitiveSlots (c : UInt8) : UInt8 :=
  if c = ascii 'D' then 2
  else if c = ascii 'J' then 2
  else if c = ascii 'I' then 1
  else if c = ascii 'S' then 1
  else if c = ascii 'F' then 1
  else if c = ascii 'Z' then 1
  else if c = ascii 'C' then 1
  else if c = ascii 'B' then 1
  else 0

/-- The body of the scan loop: `yield` goes on to `i++`, `done` breaks. -/
def scanBody (data : List UInt8) (offset : UInt8) (s : ScanState) :
    Option (ForInStep ScanState) := do
  let c ← data[s.i]?
  if c = ascii '[' then
    let (j, objArray) ← parseObjectArray data s.i
    let s := if objArray then s.insertReferenceLoad offset else s
    return .yield { s with i := j, paramCount := s.paramCount + 1 }
  else if c = ascii 'L' ∧ data[s.i - 1]? ≠ some (ascii '[') then
    -- `parse_object_instance` returns true on every path
    let j ← parseObjectInstance data s.i
    let s := s.insertReferenceLoad offset
    return .yield { s with i := j, paramCount := s.paramCount + 1 }
  else
    -- `obj_ref` and `obj_array` are false here: both branches above reset them
    let s := { s with paramCount := s.paramCount + primitiveSlots c }
    return if c = ascii ')' then .done s else .yield s

/-- The scan loop. Every turn moves the index on, so the descriptor's length bounds the
number of turns. -/
def scanLoop (data : List UInt8) (offset : UInt8) : ℕ → ScanState → Option ScanState
  | 0, s => some s
  | fuel + 1, s =>
    if s.i < data.length ∧ s.insertedObjRefCount < paramNum then
      match scanBody data offset s with
      | none => none
      | some (.done s') => some s'
      | some (.yield s') => scanLoop data offset fuel { s' with i := s'.i + 1 }
    else some s

/-- The scan of a descriptor, from the byte after `(`. -/
def scanDescriptor (data : List UInt8) (offset : UInt8) : Option ScanState :=
  scanLoop data offset data.length ⟨1, 0, 0, []⟩

theorem lt_of_parseObjectArray {data : List UInt8} {i j : ℕ} {objArray : Bool}
    (h : parseObjectArray data i = some (j, objArray)) : i < j := by
  simp only [parseObjectArray, Option.bind_eq_bind, Option.bind_eq_some_iff] at h
  obtain ⟨k, hk, primitive, -, h⟩ := h
  have hik := lt_of_advance hk
  split at h
  · simp only [Option.pure_def, Option.some.injEq, Prod.mk.injEq] at h
    omega
  · obtain ⟨l, hl, h⟩ := Option.bind_eq_some_iff.1 h
    have hkl := lt_of_advance hl
    simp only [Option.pure_def, Option.some.injEq, Prod.mk.injEq] at h
    omega

/-- No turn of the scan moves the index back. -/
theorem le_of_scanBody {data : List UInt8} {offset : UInt8} {s s' : ScanState}
    (h : scanBody data offset s = some (.yield s')) : s.i ≤ s'.i := by
  simp only [scanBody, Option.bind_eq_bind, Option.bind_eq_some_iff] at h
  obtain ⟨c, -, h⟩ := h
  split at h
  · obtain ⟨⟨j, objArray⟩, hj, h⟩ := Option.bind_eq_some_iff.1 h
    have hlt := lt_of_parseObjectArray hj
    simp only [Option.pure_def, Option.some.injEq, ForInStep.yield.injEq] at h
    rw [← h]
    exact Nat.le_of_lt hlt
  · split at h
    · obtain ⟨j, hj, h⟩ := Option.bind_eq_some_iff.1 h
      have hlt := lt_of_advance hj
      simp only [Option.pure_def, Option.some.injEq, ForInStep.yield.injEq] at h
      rw [← h]
      exact Nat.le_of_lt (Nat.lt_of_succ_lt hlt)
    · split at h <;> simp only [Option.pure_def, Option.some.injEq, ForInStep.yield.injEq,
        reduceCtorEq] at h
      have hi := congrArg ScanState.i h
      exact Nat.le_of_eq hi

/-- A `Code` attribute. -/
structure Code where
  maxStack : UInt16
  instructions : List Instruction
  deriving DecidableEq

/-- What the hook reads and writes of a method. -/
structure Method where
  name : String
  descriptor : List UInt8
  isStatic : Bool
  code : Option Code
  deriving DecidableEq

/-- `function_filtered`. -/
def functionFiltered (method : Method) : Bool :=
  if method.name = "<clinit>" ∨ method.name = "<init>" ∨ method.name = "main" then true
  else method.name = "linkToTargetMethod"

/-- The instructions put in front of a method when the scan is over. -/
def prologue (prefetchMethodIndex : BitVec 16) (s : ScanState) : List Instruction :=
  if s.insertedObjRefCount = 0 then s.inserted
  else
    s.inserted ++ List.replicate (paramNum - s.insertedObjRefCount) .aconstNull ++
      [.sipush (BitVec.ofNat 16 s.insertedObjRefCount), .invokestatic prefetchMethodIndex]

/-- The turn of `ClassFileLoadHook` for one method. -/
def instrumentMethod (prefetchMethodIndex : BitVec 16) (method : Method) : Option Method := do
  if functionFiltered method then
    return method
  if (← method.descriptor[1]?) = ascii ')' then
    return method
  match method.code with
  | none => return method
  | some code =>
    -- the stack grows before the scan has found anything
    let code := { code with maxStack := code.maxStack + 6 }
    let offset := if method.isStatic then 0 else 1
    let s ← scanDescriptor method.descriptor offset
    let instructions := prologue prefetchMethodIndex s ++ code.instructions
    return { method with code := some { code with instructions := instructions } }

/-- `ClassFileLoadHook` on the methods of a class, given the index of the prefetch method
in the constant pool. -/
def classFileLoadHook (prefetchMethodIndex : BitVec 16) (methods : List Method) :
    Option (List Method) :=
  methods.mapM (instrumentMethod prefetchMethodIndex)

end SystemDev.Instrument
