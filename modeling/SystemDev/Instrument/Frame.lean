import SystemDev.Instrument.Bounds
import SystemDev.Instrument.Prologue

/-!
# What the hook changes of a method

A method with everything that its class file holds of it: beside what the hook reads and
writes there are parts without code offsets, such as the access flags and the number of local
variables, and tables of code offsets, such as the branch targets and the exception table.
The library behind the inserter shifts the tables; how is a parameter.

The hook reserves the operand stack for the call before it scans the descriptor, and the
field has sixteen bits. So a method that gets no call is left as it was on three of the four
paths to `continue` only, and a method that gets one may end up with less stack than before.

## Main definitions

* `MethodInfo` — a method with the parts the hook does not look at
* `hookMethod`, `hookClass` — the hook on such methods
* `TakesReference` — the descriptors with a reference among their items
* `KeepsFrame` — the changes that the insertion of a call needs, and no others

## Main results

* `map_hookMethod` — on the modelled part this is the hook
* `exists_hookClass` — it returns on well-formed classes
* `takesReference_encodeDescriptor` — the condition on well-formed descriptors
* `keepsFrame_iff` — where the hook changes only what it must
-/

namespace SystemDev.Instrument

open SystemDev.Library

variable {Attributes Tables : Type}

/-- A method of a class file: what the hook works on, the parts without code offsets, and
the tables of code offsets. -/
structure MethodInfo (Attributes Tables : Type) where
  method : Method
  attributes : Attributes
  tables : Tables
  deriving DecidableEq

/-- The turn of the hook for a method. `code->sync()` and `fix_offsets` run behind the
insertion of a call only. -/
def hookMethod (shift : List Instruction → Tables → Tables) (prefetchMethodIndex : BitVec 16)
    (info : MethodInfo Attributes Tables) : Option (MethodInfo Attributes Tables) := do
  if functionFiltered info.method then
    return info
  if (← info.method.descriptor[1]?) = ascii ')' then
    return info
  match info.method.code with
  | none => return info
  | some code =>
    let code := { code with maxStack := code.maxStack + 6 }
    let s ← scanDescriptor info.method.descriptor info.method.nonStaticLocalValOffset
    let inserted := prologue prefetchMethodIndex s
    let method :=
      { info.method with code := some { code with instructions := inserted ++ code.instructions } }
    if s.insertedObjRefCount = 0 then
      return { info with method := method }
    return { info with method := method, tables := shift inserted info.tables }

/-- The hook on the methods of a class. -/
def hookClass (shift : List Instruction → Tables → Tables) (prefetchMethodIndex : BitVec 16)
    (methods : List (MethodInfo Attributes Tables)) :
    Option (List (MethodInfo Attributes Tables)) :=
  methods.mapM (hookMethod shift prefetchMethodIndex)

/-- On what it works on, this is `instrumentMethod`. -/
theorem map_hookMethod (shift : List Instruction → Tables → Tables)
    (prefetchMethodIndex : BitVec 16) (info : MethodInfo Attributes Tables) :
    (hookMethod shift prefetchMethodIndex info).map MethodInfo.method =
      instrumentMethod prefetchMethodIndex info.method := by
  simp only [hookMethod, instrumentMethod, Method.nonStaticLocalValOffset]
  cases functionFiltered info.method with
  | true => rfl
  | false =>
    cases info.method.descriptor[1]? with
    | none => rfl
    | some c =>
      by_cases hclose : c = ascii ')'
      · simp [hclose]
      · cases info.method.code with
        | none => simp
        | some code =>
          cases scanDescriptor info.method.descriptor (if info.method.isStatic then 0 else 1) with
          | none => simp [hclose]
          | some s => by_cases hcount : s.insertedObjRefCount = 0 <;> simp [hclose, hcount]

/-- The hook returns on every class of well-formed methods. -/
theorem exists_hookClass (shift : List Instruction → Tables → Tables)
    (prefetchMethodIndex : BitVec 16) {methods : List (MethodInfo Attributes Tables)}
    (hwf : ∀ info ∈ methods, info.method.WellFormed) :
    ∃ methods', hookClass shift prefetchMethodIndex methods = some methods' := by
  refine exists_mapM fun info hinfo => ?_
  obtain ⟨method', hmethod⟩ := exists_instrumentMethod prefetchMethodIndex (hwf info hinfo)
  rw [← map_hookMethod shift, Option.map_eq_some_iff] at hmethod
  obtain ⟨after, hafter, -⟩ := hmethod
  exact ⟨after, hafter⟩

/-- What a turn does to a method with code. -/
theorem hookMethod_cases {shift : List Instruction → Tables → Tables}
    {prefetchMethodIndex : BitVec 16} {info after : MethodInfo Attributes Tables} {code : Code}
    (hcode : info.method.code = some code)
    (h : hookMethod shift prefetchMethodIndex info = some after) :
    (functionFiltered info.method = true ∨ info.method.descriptor[1]? = some (ascii ')')) ∧
        after = info ∨
      functionFiltered info.method = false ∧ info.method.descriptor[1]? ≠ some (ascii ')') ∧
        ∃ s, Scans info.method.descriptor info.method.nonStaticLocalValOffset ⟨1, 0, 0, []⟩ s ∧
          after =
            { info with
              method :=
                { info.method with
                  code := some ⟨code.maxStack + 6,
                    prologue prefetchMethodIndex s ++ code.instructions⟩ }
              tables :=
                if s.insertedObjRefCount = 0 then info.tables
                else shift (prologue prefetchMethodIndex s) info.tables } := by
  cases hfilter : functionFiltered info.method with
  | true =>
    simp only [hookMethod, hfilter, if_true, Option.pure_def, Option.some.injEq] at h
    exact .inl ⟨.inl rfl, h.symm⟩
  | false =>
    simp only [hookMethod, hfilter, Bool.false_eq_true, if_false, Option.bind_eq_bind,
      Option.bind_eq_some_iff] at h
    obtain ⟨c, hat, h⟩ := h
    split at h
    case isTrue hclose =>
      subst hclose
      cases h
      exact .inl ⟨.inr hat, rfl⟩
    case isFalse hclose =>
      have hopen : info.method.descriptor[1]? ≠ some (ascii ')') := by
        rw [hat, ne_eq, Option.some.injEq]
        exact hclose
      rw [hcode] at h
      obtain ⟨s, hscan, h⟩ := Option.bind_eq_some_iff.1 h
      refine .inr ⟨rfl, hopen, s, scans_iff_scanDescriptor.2 hscan, ?_⟩
      split at h
      case isTrue hcount =>
        cases h
        rw [if_pos hcount]
      case isFalse hcount =>
        cases h
        rw [if_neg hcount]

/-- Some item of the descriptor is a reference. -/
def TakesReference (data : List UInt8) : Prop :=
  ∃ (items : List Item) (tail : List UInt8),
    data.drop (firstItem data) = items.flatMap Item.bytes ++ tail ∧
      ∃ item ∈ items, item.isReference = true

section Scan

variable {data : List UInt8} {offset : UInt8} {s : ScanState}

/-- A scan has counted a reference when there is one. -/
theorem takesReference_iff (h : Scans data offset ⟨1, 0, 0, []⟩ s) :
    TakesReference data ↔ s.insertedObjRefCount ≠ 0 := by
  rw [scans_firstItem_iff] at h
  have hleft := not_leftToArray_firstItem data
  constructor
  · rintro ⟨items, tail, hdata, hreference⟩
    have hpos := List.countP_pos_iff.2 hreference
    have hle := h.min_le_insertedObjRefCount hdata hleft
    simp only [paramNum] at hle
    omega
  · intro hcount
    obtain ⟨items, tail, hdata, hcounted, -, -⟩ := h.exists_items hleft
    refine ⟨items, tail, hdata, List.countP_pos_iff.1 ?_⟩
    simp only [Nat.zero_add] at hcounted
    omega

/-- The items of a parameter list. -/
theorem exists_items_encode (params : List FieldType) :
    ∃ items : List Item, items.flatMap Item.bytes = params.flatMap FieldType.encode ∧
      items.countP Item.isReference = params.countP FieldType.refersToObjects := by
  induction params with
  | nil => exact ⟨[], rfl, rfl⟩
  | cons t params ih =>
    obtain ⟨item, hbytes, hreference, -⟩ := t.exists_item
    obtain ⟨items, hitems, hcount⟩ := ih
    refine ⟨item :: items, ?_, ?_⟩
    · rw [List.flatMap_cons, List.flatMap_cons, hbytes, hitems]
    · rw [List.countP_cons, List.countP_cons, hreference, hcount]

/-- On a well-formed descriptor the condition is one on the parameters: one of them is an
object or an array of objects. -/
theorem takesReference_encodeDescriptor (params : List FieldType) (returned : List UInt8) :
    TakesReference (encodeDescriptor params returned) ↔
      ∃ t ∈ params, t.refersToObjects = true := by
  have hstart : firstItem (encodeDescriptor params returned) = 1 := by
    rw [firstItem, if_neg]
    rintro ⟨hbracket, -⟩
    rw [encodeDescriptor, List.getElem?_cons_zero] at hbracket
    revert hbracket
    decide
  have hleft := not_leftToArray_firstItem (encodeDescriptor params returned)
  obtain ⟨items, hitems, hcount⟩ := exists_items_encode params
  have hdata : (encodeDescriptor params returned).drop 1 =
      items.flatMap Item.bytes ++ ascii ')' :: returned := by
    rw [hitems]
    rfl
  rw [hstart] at hleft
  rw [← List.countP_pos_iff, ← hcount, List.countP_pos_iff]
  constructor
  · intro htakes
    obtain ⟨s, hscan⟩ : ∃ s, Scans (encodeDescriptor params returned) 0 ⟨1, 0, 0, []⟩ s :=
      exists_scans_of_items 0 hdata hleft (.inr (.inl rfl))
    have hne := (takesReference_iff hscan).1 htakes
    have hle := hscan.insertedObjRefCount_le hdata hleft
    refine List.countP_pos_iff.1 ?_
    simp only [Nat.zero_add] at hle
    omega
  · intro hreference
    rw [TakesReference, hstart]
    exact ⟨items, ascii ')' :: returned, hdata, hreference⟩

/-- Nothing is inserted for a descriptor without references. -/
theorem prologue_eq_nil (prefetchMethodIndex : BitVec 16)
    (h : Scans data offset ⟨1, 0, 0, []⟩ s) (hcount : s.insertedObjRefCount = 0) :
    prologue prefetchMethodIndex s = [] := by
  rw [scans_firstItem_iff] at h
  obtain ⟨items, -, -, hcounted, hlength, -⟩ := h.exists_items (not_leftToArray_firstItem data)
  rw [hcounted] at hcount
  rw [prologue, if_pos (by omega)]
  exact List.eq_nil_of_length_eq_zero (hlength.trans hcount)

/-- The call is among what is inserted otherwise. -/
theorem call_mem_prologue (prefetchMethodIndex : BitVec 16) (hcount : s.insertedObjRefCount ≠ 0) :
    .invokestatic prefetchMethodIndex ∈ prologue prefetchMethodIndex s := by
  rw [prologue, if_neg hcount]
  simp

end Scan

/-- The changes that the insertion of a call needs, and no others. Without a call the method
is as before. With one, the instructions of the call stand before the method's own, the
offsets are shifted by them, and the operand stack is no smaller than before and large enough
for the six arguments. -/
def KeepsFrame (shift : List Instruction → Tables → Tables) (prefetchMethodIndex : BitVec 16)
    (info after : MethodInfo Attributes Tables) : Prop :=
  ∃ code code' inserted, info.method.code = some code ∧
    after.method = { info.method with code := some code' } ∧
    after.attributes = info.attributes ∧
    code'.instructions = inserted ++ code.instructions ∧
    (.invokestatic prefetchMethodIndex ∉ inserted → after = info) ∧
    (.invokestatic prefetchMethodIndex ∈ inserted →
      after.tables = shift inserted info.tables ∧
        code.maxStack ≤ code'.maxStack ∧ 6 ≤ code'.maxStack)

section Turn

variable {shift : List Instruction → Tables → Tables} {prefetchMethodIndex : BitVec 16}
  {info after : MethodInfo Attributes Tables} {code : Code}

theorem keepsFrame_refl (hcode : info.method.code = some code) :
    KeepsFrame shift prefetchMethodIndex info info := by
  refine ⟨code, code, [], hcode, ?_, rfl, rfl, fun _ => rfl, ?_⟩
  · rw [← hcode]
  · intro hmem
    cases hmem

/-- The stack that the hook reserves is there unless the field wraps around. -/
theorem le_add_six_iff (maxStack : UInt16) :
    maxStack ≤ maxStack + 6 ∧ 6 ≤ maxStack + 6 ↔ maxStack.toNat + 6 < 2 ^ 16 := by
  have hlt := maxStack.toNat_lt
  have hsix : (6 : UInt16).toNat = 6 := rfl
  rw [UInt16.le_iff_toNat_le, UInt16.le_iff_toNat_le, UInt16.toNat_add, hsix]
  omega

/-- One turn changes only what it must when it changes nothing, or inserts a call and the
stack still fits its field. -/
theorem keepsFrame_of_turn_iff (hcode : info.method.code = some code)
    (h : hookMethod shift prefetchMethodIndex info = some after) :
    KeepsFrame shift prefetchMethodIndex info after ↔
      functionFiltered info.method = true ∨ info.method.descriptor[1]? = some (ascii ')') ∨
        TakesReference info.method.descriptor ∧ code.maxStack.toNat + 6 < 2 ^ 16 := by
  rcases hookMethod_cases hcode h with ⟨hskip, rfl⟩ | ⟨hfilter, hopen, s, hscan, rfl⟩
  · exact iff_of_true (keepsFrame_refl hcode) (or_assoc.1 (.inl hskip))
  · rw [hfilter, takesReference_iff hscan, ← le_add_six_iff]
    simp only [Bool.false_eq_true, hopen, false_or]
    constructor
    · rintro ⟨code₀, code', inserted, hcode₀, hmethod, -, hinstructions, hsame, hcall⟩
      obtain rfl : code = code₀ := by
        rw [hcode, Option.some.injEq] at hcode₀
        exact hcode₀
      have hcode' : some (⟨code.maxStack + 6, prologue prefetchMethodIndex s ++
          code.instructions⟩ : Code) = some code' := congrArg Method.code hmethod
      cases hcode'
      obtain rfl := List.append_cancel_right hinstructions
      by_cases hcount : s.insertedObjRefCount = 0
      · -- no call, but the stack has grown
        have hempty := prologue_eq_nil prefetchMethodIndex hscan hcount
        have hinfo := hsame (by rw [hempty]; exact List.not_mem_nil)
        have hgrown : some (⟨code.maxStack + 6, _⟩ : Code) = info.method.code :=
          congrArg (fun i => i.method.code) hinfo
        rw [hcode, Option.some.injEq, Code.mk.injEq] at hgrown
        have hnat := congrArg UInt16.toNat hgrown.1
        have hlt := code.maxStack.toNat_lt
        have hsix : (6 : UInt16).toNat = 6 := rfl
        rw [UInt16.toNat_add, hsix] at hnat
        omega
      · exact ⟨hcount, (hcall (call_mem_prologue prefetchMethodIndex hcount)).2⟩
    · rintro ⟨hcount, hstack⟩
      have hcall := call_mem_prologue prefetchMethodIndex hcount
      refine ⟨code, _, prologue prefetchMethodIndex s, hcode, rfl, rfl, rfl, ?_, ?_⟩
      · exact fun hno => absurd hcall hno
      · exact fun _ => ⟨if_neg hcount, hstack⟩

end Turn

/-- For every class that the hook returns on, and every method with code in it: the hook
changes of the method only what it must exactly when the method is filtered or has no
parameters, or when it has a reference among its parameters and room for six more entries in
the field of the operand stack. -/
theorem keepsFrame_iff (shift : List Instruction → Tables → Tables)
    (prefetchMethodIndex : BitVec 16) (methods methods' : List (MethodInfo Attributes Tables))
    (k : ℕ) (info : MethodInfo Attributes Tables) (code : Code)
    (h : hookClass shift prefetchMethodIndex methods = some methods')
    (hk : methods[k]? = some info) (hcode : info.method.code = some code) :
    (∃ after, methods'[k]? = some after ∧ KeepsFrame shift prefetchMethodIndex info after) ↔
      functionFiltered info.method = true ∨ info.method.descriptor[1]? = some (ascii ')') ∨
        TakesReference info.method.descriptor ∧ code.maxStack.toNat + 6 < 2 ^ 16 := by
  obtain ⟨after, hturn, hafter⟩ := getElem?_of_mapM h hk
  rw [← keepsFrame_of_turn_iff hcode hturn, hafter]
  simp

/-- The bytes of an instruction. -/
def Instruction.byteSize : Instruction → ℕ
  | aload0 | aload1 | aload2 | aload3 | aconstNull => 1
  | aload _ => 2
  | sipush _ | invokestatic _ => 3
  | other bytes => bytes.length

/-- Code offsets behind an insertion at the front. -/
def shiftOffsets (inserted : List Instruction) (offsets : List ℕ) : List ℕ :=
  offsets.map (· + (inserted.map Instruction.byteSize).sum)

/-- `storeContent`, with a line-number entry for its first instruction. -/
def storeContentInfo : MethodInfo Unit (List ℕ) :=
  ⟨storeContent, (), [0]⟩

theorem keepsFrame_storeContent :
    ∃ methods', hookClass shiftOffsets 7 [storeContentInfo] = some methods' ∧
      ∃ after, methods'[0]? = some after ∧ KeepsFrame shiftOffsets 7 storeContentInfo after := by
  have hreference : TakesReference storeContent.descriptor :=
    (takesReference_encodeDescriptor _ _).2 ⟨.object stringClass, List.mem_cons_self, rfl⟩
  refine ⟨_, rfl, ?_⟩
  exact (keepsFrame_iff shiftOffsets 7 [storeContentInfo] _ 0 storeContentInfo
    ⟨3, [.other [177]]⟩ rfl rfl rfl).2 (.inr (.inr ⟨hreference, by decide⟩))

/-- A method `resize` with the given parameter and operand stack. -/
def resizeInfo (param : FieldType) (maxStack : UInt16) : MethodInfo Unit (List ℕ) :=
  ⟨⟨"resize", encodeDescriptor [param] [ascii 'V'], false, some ⟨maxStack, [.other [177]]⟩⟩, (),
    [0]⟩

/-- The stack of `resize(int)` grows by six entries that nothing uses. -/
theorem resize_grows_without_call :
    hookClass shiftOffsets 7 [resizeInfo (.base .int) 2] = some [resizeInfo (.base .int) 8] ∧
      ¬ KeepsFrame shiftOffsets 7 (resizeInfo (.base .int) 2) (resizeInfo (.base .int) 8) := by
  have hturn : hookMethod shiftOffsets 7 (resizeInfo (.base .int) 2) =
      some (resizeInfo (.base .int) 8) := by decide
  refine ⟨by decide, ?_⟩
  rw [keepsFrame_of_turn_iff rfl hturn]
  rintro (hfilter | hclose | ⟨hreference, -⟩)
  · revert hfilter
    decide
  · revert hclose
    decide
  · obtain ⟨t, ht, hrefers⟩ := (takesReference_encodeDescriptor _ _).1 hreference
    cases List.mem_singleton.1 ht
    cases hrefers

end SystemDev.Instrument
