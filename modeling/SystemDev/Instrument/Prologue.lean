import Mathlib.Tactic.IntervalCases
import SystemDev.Instrument.Descriptor
import SystemDev.Instrument.Item
import SystemDev.Library.Scan

/-!
# The prologue that the hook inserts

The scanner is followed over the encoding of a parameter list. A parameter is one item of
the scanner, so `scanBody_encode` says what one turn of its loop does to it, whatever stands
before and behind it; `scanLoop_encode` follows the loop over the whole list by induction.

## Main results

* `scanBody_encode` — one turn consumes one parameter
* `scanLoop_encode` — the loop loads the first references from their slots
* `hook_inserts_expectedPrologue` — the prologue of every method
-/

namespace SystemDev.Instrument

open SystemDev.Library

section Parameter

variable {data seen tail : List UInt8} {offset : UInt8} {s : ScanState}

/-- The brackets of a field descriptor stand before a base type or a class name. -/
theorem FieldType.encode_cases (t : FieldType) :
    ∃ depth, (∃ type : BaseType, t.refersToObjects = false ∧
        t.encode = List.replicate depth (ascii '[') ++ [type.symbol]) ∨
      (∃ name : ClassName, t.refersToObjects = true ∧
        t.encode = List.replicate depth (ascii '[') ++
          ascii 'L' :: (name.bytes ++ [ascii ';'])) := by
  induction t with
  | base type => exact ⟨0, .inl ⟨type, rfl, rfl⟩⟩
  | object name => exact ⟨0, .inr ⟨name, rfl, rfl⟩⟩
  | array component ih =>
    obtain ⟨depth, ⟨type, hrefers, hencode⟩ | ⟨name, hrefers, hencode⟩⟩ := ih
    · refine ⟨depth + 1, .inl ⟨type, hrefers, ?_⟩⟩
      rw [encode, hencode, List.replicate_succ, List.cons_append]
    · refine ⟨depth + 1, .inr ⟨name, hrefers, ?_⟩⟩
      rw [encode, hencode, List.replicate_succ, List.cons_append]

/-- The state behind a parameter, before the loop's `i++`. -/
def ScanState.behind (s : ScanState) (offset : UInt8) (t : FieldType) : ScanState :=
  let s' := if t.refersToObjects then s.insertReferenceLoad offset else s
  { s' with i := s.i + t.encode.length - 1, paramCount := s.paramCount + UInt8.ofNat t.slots }

theorem primitiveSlots_symbol (type : BaseType) :
    primitiveSlots type.symbol = UInt8.ofNat type.slots := by
  cases type <;> decide

/-- The scanner takes a parameter for one item. -/
theorem FieldType.exists_item (t : FieldType) :
    ∃ item : Item, item.bytes = t.encode ∧ item.isReference = t.refersToObjects ∧
      item.slots = UInt8.ofNat t.slots := by
  cases t with
  | base type =>
    exact ⟨.symbol type.symbol (by cases type <;> decide), rfl, rfl, primitiveSlots_symbol type⟩
  | object name =>
    -- the instance helper consumes the first byte of the name apart from the others
    obtain ⟨c, rest, hbytes⟩ := List.exists_cons_of_ne_nil name.nonempty
    have hclosed : ascii ';' ∉ rest := by
      have hname := name.closed
      rw [hbytes] at hname
      exact fun hmem => hname (List.mem_cons_of_mem c hmem)
    exact ⟨.object c rest hclosed, by simp [Item.bytes, encode, hbytes], rfl, rfl⟩
  | array component =>
    obtain ⟨depth, ⟨type, hrefers, hencode⟩ | ⟨name, hrefers, hencode⟩⟩ :=
      component.encode_cases
    · refine ⟨.primitiveArray depth type.symbol (by cases type <;> decide), ?_, ?_, rfl⟩
      · rw [Item.bytes, encode, hencode]
      · exact hrefers.symm
    · refine ⟨.objectArray depth (ascii 'L') name.bytes (by decide) name.closed, ?_, ?_, rfl⟩
      · rw [Item.bytes, encode, hencode]
      · exact hrefers.symm

/-- One turn of the loop consumes one parameter. -/
theorem scanBody_encode (t : FieldType) (hi : s.i = seen.length)
    (hdata : data = seen ++ (t.encode ++ tail)) (hseen : seen ≠ [])
    (hlast : seen.getLast? ≠ some (ascii '[')) :
    scanBody data offset s = some (.yield (s.behind offset t)) := by
  obtain ⟨item, hbytes, hreference, hslots⟩ := t.exists_item
  have hdrop : data.drop s.i = item.bytes ++ tail := by
    rw [hdata, hi, List.drop_left, hbytes]
  have hleft : ¬ LeftToArray data s.i := by
    have hpos := List.length_pos_of_ne_nil hseen
    rintro ⟨-, hbefore⟩
    rw [hdata, hi, List.getElem?_append_left (by omega), ← List.getLast?_eq_getElem?] at hbefore
    exact hlast hbefore
  rw [scanBody_item item hdrop hleft, ScanState.past, ScanState.behind, hbytes, hreference,
    hslots]

/-- The loop is left at the end of the parameters. -/
theorem scanBody_close (hi : s.i = seen.length) (returned : List UInt8) :
    scanBody (seen ++ ascii ')' :: returned) offset s = some (.done s) :=
  scanBody_close_at (by simp [hi])

end Parameter

theorem BaseType.slots_le (type : BaseType) : type.slots ≤ 2 := by
  cases type <;> decide

theorem FieldType.slots_le (t : FieldType) : t.slots ≤ 2 := by
  cases t with
  | base type => exact type.slots_le
  | object _ => exact Nat.le_succ 1
  | array _ => exact Nat.le_succ 1

/-- A slot below 256 is loaded as it is, by the short or the long form. -/
theorem effect_referenceLoadInstruction {paramCount offset : UInt8}
    (h : offset.toNat + paramCount.toNat ≤ 255) :
    (referenceLoadInstruction paramCount offset).effect =
      .loadReference (offset.toNat + paramCount.toNat) := by
  have hslot : (paramCount + offset).toNat = offset.toNat + paramCount.toNat := by
    rw [UInt8.toNat_add]
    omega
  rw [referenceLoadInstruction, ← hslot]
  split_ifs with h0 h1 h2 h3
  · rw [h0]; rfl
  · rw [h1]; rfl
  · rw [h2]; rfl
  · rw [h3]; rfl
  · rfl

theorem toNat_paramCount_behind {s : ScanState} {t : FieldType} (offset : UInt8)
    (h : s.paramCount.toNat + t.slots ≤ 255) :
    (s.behind offset t).paramCount.toNat = s.paramCount.toNat + t.slots := by
  have hsize := t.slots_le
  change (s.paramCount + UInt8.ofNat t.slots).toNat = _
  rw [UInt8.toNat_add, UInt8.toNat_ofNat_of_lt' (by rw [UInt8.size]; omega)]
  omega

/-- The loads still due in a state of the scan, when the parameters ahead are `params`. -/
def dueLoads (offset : UInt8) (s : ScanState) (params : List FieldType) : List Effect :=
  ((referenceSlots (offset.toNat + s.paramCount.toNat) params).take
    (paramNum - s.insertedObjRefCount)).map .loadReference

/-- A parameter takes the load it is due. -/
theorem dueLoads_cons {offset : UInt8} {s : ScanState} {t : FieldType} {params : List FieldType}
    (hfit : offset.toNat + s.paramCount.toNat + t.slots ≤ 255)
    (hroom : s.insertedObjRefCount < paramNum) :
    (s.behind offset t).inserted.map Instruction.effect ++
        dueLoads offset (s.behind offset t) params =
      s.inserted.map Instruction.effect ++ dueLoads offset s (t :: params) := by
  have hcount := toNat_paramCount_behind (s := s) (t := t) offset (by omega)
  rw [dueLoads, dueLoads, hcount, referenceSlots_cons, ← Nat.add_assoc]
  cases hrefers : t.refersToObjects with
  | false => simp [ScanState.behind, hrefers]
  | true =>
    have hdue : paramNum - s.insertedObjRefCount = paramNum - (s.insertedObjRefCount + 1) + 1 := by
      omega
    have heffect := effect_referenceLoadInstruction
      (show offset.toNat + s.paramCount.toNat ≤ 255 by omega)
    rw [if_pos rfl, hdue, List.take_succ_cons]
    simp [ScanState.behind, hrefers, ScanState.insertReferenceLoad, heffect]

/-- A parameter is counted when it refers to objects. -/
theorem insertedObjRefCount_behind (offset : UInt8) (s : ScanState) (t : FieldType)
    (params : List FieldType) :
    (s.behind offset t).insertedObjRefCount + (references params).length =
      s.insertedObjRefCount + (references (t :: params)).length := by
  rw [references_cons, ScanState.behind]
  cases t.refersToObjects <;> simp [ScanState.insertReferenceLoad]
  omega

theorem insertedObjRefCount_behind_le (offset : UInt8) (s : ScanState) (t : FieldType) :
    (s.behind offset t).insertedObjRefCount ≤ s.insertedObjRefCount + 1 := by
  rw [ScanState.behind]
  cases t.refersToObjects with
  | false => exact Nat.le_succ _
  | true => exact Nat.le_refl _

/-- Behind a parameter the scanner does not look back at a bracket. -/
theorem getLast?_append_encode_ne (seen : List UInt8) (t : FieldType) :
    (seen ++ t.encode).getLast? ≠ some (ascii '[') := by
  obtain ⟨item, hbytes, -⟩ := t.exists_item
  have hne : item.bytes ≠ [] := List.ne_nil_of_length_pos item.length_bytes_pos
  rw [← hbytes, List.getLast?_append_of_ne_nil seen hne]
  exact item.getLast?_bytes_ne

/-- The loop on the encoding of a parameter list. -/
theorem scanLoop_encode (offset : UInt8) (params : List FieldType) (returned : List UInt8)
    {seen : List UInt8} {s : ScanState} {fuel : ℕ} (hfuel : params.length < fuel)
    (hi : s.i = seen.length) (hseen : seen ≠ []) (hlast : seen.getLast? ≠ some (ascii '['))
    (hfit : offset.toNat + s.paramCount.toNat + totalSlots params ≤ 255)
    (hroom : s.insertedObjRefCount ≤ paramNum) :
    ∃ s', scanLoop (seen ++ (params.flatMap FieldType.encode ++ ascii ')' :: returned)) offset
        fuel s = some s' ∧
      s'.insertedObjRefCount =
        min paramNum (s.insertedObjRefCount + (references params).length) ∧
      s'.inserted.map Instruction.effect =
        s.inserted.map Instruction.effect ++ dueLoads offset s params := by
  -- `seen` grows by one parameter in every turn, the string as a whole stays
  induction params generalizing seen s fuel with
  | nil =>
    obtain ⟨fuel, rfl⟩ := Nat.exists_eq_add_of_lt hfuel
    refine ⟨s, ?_, ?_, ?_⟩
    · rw [List.flatMap_nil, List.nil_append, scanLoop, scanBody_close hi returned]
      simp
    · simp [references, hroom]
    · simp [dueLoads]
  | cons t params ih =>
    obtain ⟨fuel, rfl⟩ : ∃ n, fuel = n + 1 := ⟨fuel - 1, by omega⟩
    rw [totalSlots_cons] at hfit
    rw [List.length_cons] at hfuel
    have hdata : seen ++ ((t :: params).flatMap FieldType.encode ++ ascii ')' :: returned) =
        seen ++ (t.encode ++ (params.flatMap FieldType.encode ++ ascii ')' :: returned)) := by
      simp
    -- the loop is left without reading further once it has found five references
    rcases Nat.lt_or_ge s.insertedObjRefCount paramNum with hless | hfull
    · have hinside : s.i < (seen ++ ((t :: params).flatMap FieldType.encode ++
          ascii ')' :: returned)).length := by
        simp only [hi, List.length_append, List.length_cons]
        omega
      have hpos := t.length_encode_pos
      have hcount := toNat_paramCount_behind (s := s) (t := t) offset (by omega)
      have hcounted := insertedObjRefCount_behind offset s t params
      have hstep := insertedObjRefCount_behind_le offset s t
      have hmoved : ({ s.behind offset t with i := (s.behind offset t).i + 1 } : ScanState).i =
          (seen ++ t.encode).length := by
        change s.i + t.encode.length - 1 + 1 = _
        rw [List.length_append]
        omega
      obtain ⟨s', hloop, hinserted, heffects⟩ := ih (Nat.lt_of_succ_lt_succ hfuel) hmoved
        (by simp [hseen]) (getLast?_append_encode_ne seen t) (by simp only [hcount]; omega)
        (by simp only; omega)
      refine ⟨s', ?_, ?_, ?_⟩
      · rw [scanLoop, if_pos ⟨hinside, hless⟩, scanBody_encode t hi hdata hseen hlast, hdata]
        rw [List.append_assoc] at hloop
        exact hloop
      · rw [hinserted, ← hcounted]
      · rw [heffects, ← dueLoads_cons (by omega) hless]
        rfl
    · refine ⟨s, ?_, ?_, ?_⟩
      · rw [scanLoop, if_neg (by omega)]
      · omega
      · simp [dueLoads, Nat.sub_eq_zero_of_le hfull]

/-- The slot of the first parameter: a method that is not static has `this` in slot 0. -/
def Method.firstSlot (method : Method) : ℕ :=
  if method.isStatic then 0 else 1

/-- The method has a descriptor of the grammar, and its parameters fit the 255 slots that
the format of class files allows. -/
def Method.WellFormed (method : Method) : Prop :=
  ∃ params returned, method.descriptor = encodeDescriptor params returned ∧
    method.firstSlot + totalSlots params ≤ 255

theorem length_le_length_encode (params : List FieldType) :
    params.length ≤ (params.flatMap FieldType.encode).length := by
  induction params with
  | nil => exact Nat.le_refl 0
  | cons t params ih =>
    have hpos := t.length_encode_pos
    rw [List.flatMap_cons, List.length_append, List.length_cons]
    omega

/-- The scan of a well-formed descriptor. -/
theorem scanDescriptor_encode (offset : UInt8) (params : List FieldType) (returned : List UInt8)
    (hfit : offset.toNat + totalSlots params ≤ 255) :
    ∃ s, scanDescriptor (encodeDescriptor params returned) offset = some s ∧
      s.insertedObjRefCount = min paramNum (references params).length ∧
      s.inserted.map Instruction.effect =
        ((referenceSlots offset.toNat params).take paramNum).map .loadReference := by
  -- one turn for each parameter and one for the `)`
  have hfuel : params.length < (encodeDescriptor params returned).length := by
    have hlength := length_le_length_encode params
    rw [encodeDescriptor, List.length_cons, List.length_append]
    omega
  have hstart : (⟨1, 0, 0, []⟩ : ScanState).i = [ascii '('].length := rfl
  obtain ⟨s, hloop, hcount, heffects⟩ := scanLoop_encode offset params returned hfuel hstart
    (by simp) (by decide) (by simpa using hfit) (Nat.zero_le _)
  refine ⟨s, hloop, ?_, ?_⟩
  · simpa using hcount
  · simpa [dueLoads] using heffects

/-- A scan that found the first references leads to the expected prologue. -/
theorem effect_prologue {prefetchMethodIndex : BitVec 16} {s : ScanState} {first : ℕ}
    {params : List FieldType}
    (hcount : s.insertedObjRefCount = min paramNum (references params).length)
    (heffects : s.inserted.map Instruction.effect =
      ((referenceSlots first params).take paramNum).map .loadReference) :
    (prologue prefetchMethodIndex s).map Instruction.effect =
      expectedPrologue prefetchMethodIndex first params := by
  have hlength := length_referenceSlots first params
  have htake : (referenceSlots first params).take (min 5 (references params).length) =
      (referenceSlots first params).take paramNum := by
    rw [List.take_eq_take_iff, hlength, paramNum]
    omega
  have hcounted : min 5 (references params).length = s.insertedObjRefCount := hcount.symm
  rw [prologue, expectedPrologue]
  rcases Nat.eq_zero_or_pos (references params).length with hnone | hsome
  · have hzero : s.insertedObjRefCount = 0 := by omega
    have hempty := List.eq_nil_of_length_eq_zero (hlength.trans hnone)
    rw [if_pos hzero, if_pos (List.eq_nil_of_length_eq_zero hnone), heffects, hempty]
    rfl
  · have hpos : s.insertedObjRefCount ≠ 0 := by
      rw [hcount, paramNum]
      omega
    -- the operand of `sipush` is signed
    have hsmall : (BitVec.ofNat 16 s.insertedObjRefCount).toInt = s.insertedObjRefCount := by
      have hle : s.insertedObjRefCount ≤ 5 := by omega
      interval_cases s.insertedObjRefCount <;> rfl
    rw [if_neg hpos, if_neg (List.ne_nil_of_length_pos hsome), htake, hcounted, ← heffects]
    simp [Instruction.effect, hsmall, paramNum]

theorem FieldType.head?_encode_ne (t : FieldType) : t.encode.head? ≠ some (ascii ')') := by
  cases t with
  | base type => cases type <;> decide
  | object _ => rw [encode, List.head?_cons]; decide
  | array _ => rw [encode, List.head?_cons]; decide

/-- The test of the hook for a descriptor without parameters. -/
theorem getElem?_one_encodeDescriptor (params : List FieldType) (returned : List UInt8) :
    ∃ c, (encodeDescriptor params returned)[1]? = some c ∧ (c = ascii ')' ↔ params = []) := by
  cases params with
  | nil => exact ⟨ascii ')', rfl, by simp⟩
  | cons t params =>
    obtain ⟨c, rest, hencode⟩ := List.exists_cons_of_length_pos t.length_encode_pos
    refine ⟨c, ?_, ?_⟩
    · simp [encodeDescriptor, hencode]
    · have hne := t.head?_encode_ne
      rw [hencode, List.head?_cons] at hne
      simpa using hne

/-- The turn of the hook for a well-formed method. -/
theorem instrumentMethod_encode {method : Method} {code : Code} {params : List FieldType}
    {returned : List UInt8} (prefetchMethodIndex : BitVec 16)
    (hfilter : functionFiltered method = false) (hcode : method.code = some code)
    (hdesc : method.descriptor = encodeDescriptor params returned)
    (hfit : method.firstSlot + totalSlots params ≤ 255) :
    ∃ maxStack inserted, instrumentMethod prefetchMethodIndex method =
        some { method with code := some ⟨maxStack, inserted ++ code.instructions⟩ } ∧
      inserted.map Instruction.effect =
        expectedPrologue prefetchMethodIndex method.firstSlot params := by
  obtain ⟨c, hat, hempty⟩ := getElem?_one_encodeDescriptor params returned
  rw [← hdesc] at hat
  by_cases hparams : params = []
  · refine ⟨code.maxStack, [], ?_, by rw [hparams]; rfl⟩
    have hsame : { method with code := some ⟨code.maxStack, code.instructions⟩ } = method := by
      rw [← hcode]
    simp [instrumentMethod, hfilter, hat, hempty.2 hparams, hsame]
  · have hoffset : (if method.isStatic then 0 else 1 : UInt8).toNat = method.firstSlot := by
      rw [Method.firstSlot]
      split <;> rfl
    obtain ⟨s, hscan, hcount, heffects⟩ := scanDescriptor_encode
      (if method.isStatic then 0 else 1) params returned (by rw [hoffset]; exact hfit)
    rw [hoffset] at heffects
    refine ⟨code.maxStack + 6, prologue prefetchMethodIndex s, ?_,
      effect_prologue hcount heffects⟩
    have hopen : c ≠ ascii ')' := mt hempty.1 hparams
    rw [← hdesc] at hscan
    simp [instrumentMethod, hfilter, hat, hopen, hcode, hscan]

/-- No read of the hook leaves a well-formed descriptor. -/
theorem exists_instrumentMethod {method : Method} (prefetchMethodIndex : BitVec 16)
    (hwf : method.WellFormed) :
    ∃ method', instrumentMethod prefetchMethodIndex method = some method' := by
  obtain ⟨params, returned, hdesc, hfit⟩ := hwf
  cases hfilter : functionFiltered method with
  | true => exact ⟨method, by simp [instrumentMethod, hfilter]⟩
  | false =>
    cases hcode : method.code with
    | none =>
      obtain ⟨c, hat, -⟩ := getElem?_one_encodeDescriptor params returned
      rw [← hdesc] at hat
      refine ⟨method, ?_⟩
      by_cases hclose : c = ascii ')' <;> simp [instrumentMethod, hfilter, hat, hclose, hcode]
    | some code =>
      obtain ⟨maxStack, inserted, h, -⟩ :=
        instrumentMethod_encode prefetchMethodIndex hfilter hcode hdesc hfit
      exact ⟨_, h⟩

/-- For every method with code that is not filtered, whatever its parameters: the hook puts
the expected prologue in front of the method's own instructions. It does so in every class
it returns on, among them all classes of well-formed methods. -/
theorem hook_inserts_expectedPrologue (prefetchMethodIndex : BitVec 16) (methods : List Method)
    (k : ℕ) (method : Method) (code : Code) (params : List FieldType) (returned : List UInt8)
    (hk : methods[k]? = some method) (hfilter : functionFiltered method = false)
    (hcode : method.code = some code)
    (hdesc : method.descriptor = encodeDescriptor params returned)
    (hfit : method.firstSlot + totalSlots params ≤ 255) :
    ∃ maxStack inserted,
      instrumentMethod prefetchMethodIndex method =
        some { method with code := some ⟨maxStack, inserted ++ code.instructions⟩ } ∧
      (∀ methods', classFileLoadHook prefetchMethodIndex methods = some methods' →
        methods'[k]? =
          some { method with code := some ⟨maxStack, inserted ++ code.instructions⟩ }) ∧
      ((∀ m ∈ methods, m.WellFormed) →
        ∃ methods', classFileLoadHook prefetchMethodIndex methods = some methods') ∧
      inserted.map Instruction.effect =
        expectedPrologue prefetchMethodIndex method.firstSlot params := by
  obtain ⟨maxStack, inserted, hturn, heffects⟩ :=
    instrumentMethod_encode prefetchMethodIndex hfilter hcode hdesc hfit
  refine ⟨maxStack, inserted, hturn, ?_, ?_, heffects⟩
  · intro methods' h
    obtain ⟨method', hmethod, hat⟩ := getElem?_of_mapM h hk
    rw [hat, ← hmethod, hturn]
  · intro hwf
    exact exists_mapM fun m hm => exists_instrumentMethod prefetchMethodIndex (hwf m hm)

/-- The class `java/lang/String`. -/
def stringClass : ClassName := ⟨"java/lang/String".toList.map ascii, by decide, by decide⟩

/-- The class `objItem`. -/
def objItemClass : ClassName := ⟨"objItem".toList.map ascii, by decide, by decide⟩

/-- The parameters of the longest `storeContent` of `objItem`. -/
def storeContentParams : List FieldType :=
  [.object stringClass, .array (.base .byte), .base .int, .array (.array (.object objItemClass)),
    .array (.base .double), .base .int, .array (.object objItemClass), .base .int,
    .object stringClass]

/-- That method, with one instruction in its body. -/
def storeContent : Method :=
  ⟨"storeContent", encodeDescriptor storeContentParams [ascii 'V'], false,
    some ⟨3, [.other [177]]⟩⟩

theorem hook_inserts_storeContent :
    ∃ maxStack inserted, instrumentMethod 7 storeContent =
        some { storeContent with code := some ⟨maxStack, inserted ++ [.other [177]]⟩ } ∧
      inserted.map Instruction.effect =
        [.loadReference 1, .loadReference 4, .loadReference 7, .loadReference 9, .pushNull,
          .pushInt 4, .callStatic 7] := by
  obtain ⟨maxStack, inserted, hturn, -, -, heffects⟩ := hook_inserts_expectedPrologue 7
    [storeContent] 0 storeContent ⟨3, [.other [177]]⟩ storeContentParams [ascii 'V'] rfl
    (by decide) rfl rfl (by decide)
  exact ⟨maxStack, inserted, hturn, heffects⟩

end SystemDev.Instrument
