import SystemDev.Instrument.Item

/-!
# Where the scanner stays inside the descriptor

The hook runs before the class file is checked, so a descriptor is any byte string. The
outer loop of the scan compares its index with the length, the loops of the two helpers do
not: they run on behind the end of a descriptor that stops inside an array or a class name.
The test for a method without parameters reads index 1 of every descriptor.

`Scans` is the loop as a relation. A derivation is a finite run in which every read is
inside, so a state without one is a state from which the loop reads outside or never ends.

## Main definitions

* `Scans` — the runs of the scan loop
* `Method.Scanned` — the turn of the hook for a method, up to the end of the scan
* `DividesIntoItems` — the descriptors without a cut-off item

## Main results

* `scans_iff_scanLoop` — runs of the loop and the function agree
* `instrumentMethod_iff_scanned` — the hook returns exactly on the methods it can scan
* `scanned_iff_dividesIntoItems` — the descriptors on which all reads are inside
-/

namespace SystemDev.Instrument

open SystemDev.Library

/-- A run of the scan loop to its end, with every read inside the descriptor. -/
inductive Scans (data : List UInt8) (offset : UInt8) : ScanState → ScanState → Prop
  | stop {s : ScanState}
      (htest : ¬ (s.i < data.length ∧ s.insertedObjRefCount < paramNum)) :
      Scans data offset s s
  | leave {s s' : ScanState}
      (htest : s.i < data.length ∧ s.insertedObjRefCount < paramNum)
      (hbody : scanBody data offset s = some (.done s')) :
      Scans data offset s s'
  | turn {s s' s'' : ScanState}
      (htest : s.i < data.length ∧ s.insertedObjRefCount < paramNum)
      (hbody : scanBody data offset s = some (.yield s'))
      (hrest : Scans data offset { s' with i := s'.i + 1 } s'') :
      Scans data offset s s''

section Runs

variable {data tail : List UInt8} {offset : UInt8} {s s' : ScanState} {items : List Item}

theorem scanLoop_of_scans (h : Scans data offset s s') {fuel : ℕ}
    (hfuel : data.length ≤ s.i + fuel) : scanLoop data offset fuel s = some s' := by
  induction h generalizing fuel with
  | stop htest =>
    cases fuel with
    | zero => rfl
    | succ fuel => rw [scanLoop, if_neg htest]
  | leave htest hbody =>
    obtain ⟨fuel, rfl⟩ : ∃ n, fuel = n + 1 := ⟨fuel - 1, by omega⟩
    rw [scanLoop, if_pos htest, hbody]
  | @turn s s' s'' htest hbody hrest ih =>
    obtain ⟨fuel, rfl⟩ : ∃ n, fuel = n + 1 := ⟨fuel - 1, by omega⟩
    have hle := le_of_scanBody hbody
    rw [scanLoop, if_pos htest, hbody]
    exact ih (by simp only; omega)

theorem scans_of_scanLoop {fuel : ℕ} (hfuel : data.length ≤ s.i + fuel)
    (h : scanLoop data offset fuel s = some s') : Scans data offset s s' := by
  induction fuel generalizing s with
  | zero =>
    cases h
    exact .stop (by omega)
  | succ fuel ih =>
    rw [scanLoop] at h
    split at h
    case isTrue htest =>
      split at h
      case h_1 => cases h
      case h_2 hbody =>
        cases h
        exact .leave htest hbody
      case h_3 t hbody =>
        have hle := le_of_scanBody hbody
        exact .turn htest hbody (ih (by simp only; omega) h)
    case isFalse htest =>
      cases h
      exact .stop htest

/-- The function returns what the loop ends with. -/
theorem scans_iff_scanLoop {fuel : ℕ} (hfuel : data.length ≤ s.i + fuel) :
    Scans data offset s s' ↔ scanLoop data offset fuel s = some s' :=
  ⟨fun h => scanLoop_of_scans h hfuel, scans_of_scanLoop hfuel⟩

theorem scans_iff_scanDescriptor :
    Scans data offset ⟨1, 0, 0, []⟩ s ↔ scanDescriptor data offset = some s :=
  scans_iff_scanLoop (Nat.le_add_left _ _)

/-- The state in which the loop goes on behind an item. -/
def ScanState.behindItem (s : ScanState) (offset : UInt8) (item : Item) : ScanState :=
  { s.past offset item with i := (s.past offset item).i + 1 }

@[simp]
theorem behindItem_i (s : ScanState) (offset : UInt8) (item : Item) :
    (s.behindItem offset item).i = s.i + item.bytes.length := by
  have hpos := item.length_bytes_pos
  change s.i + item.bytes.length - 1 + 1 = _
  omega

@[simp]
theorem behindItem_insertedObjRefCount (s : ScanState) (offset : UInt8) (item : Item) :
    (s.behindItem offset item).insertedObjRefCount =
      s.insertedObjRefCount + if item.isReference then 1 else 0 := by
  simp only [ScanState.behindItem, ScanState.past]
  cases item.isReference <;> rfl

@[simp]
theorem behindItem_length_inserted (s : ScanState) (offset : UInt8) (item : Item) :
    (s.behindItem offset item).inserted.length =
      s.inserted.length + if item.isReference then 1 else 0 := by
  simp only [ScanState.behindItem, ScanState.past]
  cases item.isReference <;> simp [ScanState.insertReferenceLoad]

theorem drop_behindItem {item : Item} (h : data.drop s.i = item.bytes ++ tail) :
    data.drop (s.behindItem offset item).i = tail := by
  rw [behindItem_i, ← List.drop_drop, h, List.drop_left]

/-- Behind an item every `L` starts a class name. -/
theorem not_leftToArray_behindItem {item : Item} (h : data.drop s.i = item.bytes ++ tail) :
    ¬ LeftToArray data (s.behindItem offset item).i := by
  have hpos := item.length_bytes_pos
  rintro ⟨-, hbefore⟩
  rw [behindItem_i, Nat.add_sub_assoc hpos, ← List.getElem?_drop, h,
    List.getElem?_append_left (Nat.sub_one_lt_of_lt hpos), ← List.getLast?_eq_getElem?] at hbefore
  exact item.getLast?_bytes_ne hbefore

/-- A run on an item at hand: it has stopped, or it is behind the item after one turn. -/
theorem Scans.item_cases (h : Scans data offset s s') {item : Item}
    (hdata : data.drop s.i = item.bytes ++ tail) (hleft : ¬ LeftToArray data s.i) :
    paramNum ≤ s.insertedObjRefCount ∧ s' = s ∨
      Scans data offset (s.behindItem offset item) s' := by
  have hbody : scanBody data offset s = _ := scanBody_item item hdata hleft
  cases h with
  | stop htest =>
    have hlength := congrArg List.length hdata
    have hpos := item.length_bytes_pos
    rw [List.length_drop, List.length_append] at hlength
    exact .inl ⟨by omega, rfl⟩
  | leave htest hdone =>
    rw [hbody] at hdone
    cases hdone
  | turn htest hyield hrest =>
    rw [hbody] at hyield
    cases hyield
    exact .inr hrest

/-- A whole run divides what it consumes into items. It counts and loads their references,
and stops at the end, on a `)` or with all references it can load. -/
theorem Scans.exists_items (h : Scans data offset s s') (hleft : ¬ LeftToArray data s.i) :
    ∃ (items : List Item) (tail : List UInt8),
      data.drop s.i = items.flatMap Item.bytes ++ tail ∧
      s'.insertedObjRefCount = s.insertedObjRefCount + items.countP Item.isReference ∧
      s'.inserted.length = s.inserted.length + items.countP Item.isReference ∧
      (tail = [] ∨ tail.head? = some (ascii ')') ∨ paramNum ≤ s'.insertedObjRefCount) := by
  induction h with
  | @stop s htest =>
    refine ⟨[], data.drop s.i, rfl, rfl, rfl, ?_⟩
    rcases Nat.lt_or_ge s.i data.length with hinside | hend
    · exact .inr (.inr (by omega))
    · exact .inl (List.drop_eq_nil_of_le hend)
  | @leave s s' htest hbody =>
    obtain ⟨hat, rfl⟩ := getElem?_of_scanBody_done hbody
    refine ⟨[], data.drop s'.i, rfl, rfl, rfl, .inr (.inl ?_)⟩
    rw [List.head?_drop, hat]
  | @turn s s' s'' htest hbody hrest ih =>
    obtain ⟨item, tail, hdata, rfl⟩ := exists_item_of_scanBody hbody hleft
    have hbehind : data.drop (s.behindItem offset item).i = tail := drop_behindItem hdata
    obtain ⟨items, tail', hitems, hcount, hlength, hend⟩ := ih (not_leftToArray_behindItem hdata)
    change data.drop (s.behindItem offset item).i = _ at hitems
    change _ = (s.behindItem offset item).insertedObjRefCount + _ at hcount
    change _ = (s.behindItem offset item).inserted.length + _ at hlength
    refine ⟨item :: items, tail', ?_, ?_, ?_, hend⟩
    · rw [hdata, List.flatMap_cons, List.append_assoc, ← hitems, hbehind]
    · rw [hcount, behindItem_insertedObjRefCount, List.countP_cons]
      omega
    · rw [hlength, behindItem_length_inserted, List.countP_cons]
      omega

/-- On a descriptor that goes on with given items there is a run, when they are followed by
nothing, by a `)`, or have enough references. -/
theorem exists_scans_of_items (offset : UInt8)
    (hdata : data.drop s.i = items.flatMap Item.bytes ++ tail) (hleft : ¬ LeftToArray data s.i)
    (hend : tail = [] ∨ tail.head? = some (ascii ')') ∨
      paramNum ≤ s.insertedObjRefCount + items.countP Item.isReference) :
    ∃ s', Scans data offset s s' := by
  induction items generalizing s with
  | nil =>
    by_cases htest : s.i < data.length ∧ s.insertedObjRefCount < paramNum
    · have hne : tail ≠ [] := by
        rintro rfl
        have hle := List.drop_eq_nil_iff.1 hdata
        omega
      have hclose : tail.head? = some (ascii ')') := by
        rcases hend with hnil | hclose | hfull
        · exact absurd hnil hne
        · exact hclose
        · rw [List.countP_nil] at hfull
          omega
      have hat : data[s.i]? = some (ascii ')') := by
        rw [← List.head?_drop, hdata]
        exact hclose
      exact ⟨_, .leave htest (scanBody_close_at hat)⟩
    · exact ⟨s, .stop htest⟩
  | cons item items ih =>
    rw [List.flatMap_cons, List.append_assoc] at hdata
    by_cases htest : s.i < data.length ∧ s.insertedObjRefCount < paramNum
    · have hend' : tail = [] ∨ tail.head? = some (ascii ')') ∨ paramNum ≤
          (s.behindItem offset item).insertedObjRefCount + items.countP Item.isReference := by
        refine hend.imp_right fun h => h.imp_right fun hfull => ?_
        rw [List.countP_cons] at hfull
        rw [behindItem_insertedObjRefCount]
        omega
      obtain ⟨s', hrest⟩ := ih (drop_behindItem hdata) (not_leftToArray_behindItem hdata) hend'
      exact ⟨s', .turn htest (scanBody_item item hdata hleft) hrest⟩
    · exact ⟨s, .stop htest⟩

/-- A run that passes given items has counted their references, up to five. -/
theorem Scans.min_le_insertedObjRefCount (h : Scans data offset s s')
    (hdata : data.drop s.i = items.flatMap Item.bytes ++ tail)
    (hleft : ¬ LeftToArray data s.i) :
    min paramNum (s.insertedObjRefCount + items.countP Item.isReference) ≤
      s'.insertedObjRefCount := by
  induction items generalizing s with
  | nil =>
    obtain ⟨items, -, -, hcount, -, -⟩ := h.exists_items hleft
    rw [List.countP_nil]
    omega
  | cons item items ih =>
    rw [List.flatMap_cons, List.append_assoc] at hdata
    rcases h.item_cases hdata hleft with ⟨hfull, rfl⟩ | hrest
    · exact Nat.le_trans (Nat.min_le_left _ _) hfull
    · have hle := ih hrest (drop_behindItem hdata) (not_leftToArray_behindItem hdata)
      rw [behindItem_insertedObjRefCount] at hle
      rw [List.countP_cons]
      omega

/-- A run counts no references but those of the items before a `)`. -/
theorem Scans.insertedObjRefCount_le (h : Scans data offset s s')
    (hdata : data.drop s.i = items.flatMap Item.bytes ++ ascii ')' :: tail)
    (hleft : ¬ LeftToArray data s.i) :
    s'.insertedObjRefCount ≤ s.insertedObjRefCount + items.countP Item.isReference := by
  induction items generalizing s with
  | nil =>
    have hbody : scanBody data offset s = _ := scanBody_close_at (getElem?_of_drop hdata)
    cases h with
    | stop htest => exact Nat.le_refl _
    | leave htest hdone =>
      rw [hbody] at hdone
      cases hdone
      exact Nat.le_refl _
    | turn htest hyield hrest =>
      rw [hbody] at hyield
      cases hyield
  | cons item items ih =>
    rw [List.flatMap_cons, List.append_assoc] at hdata
    rcases h.item_cases hdata hleft with ⟨-, rfl⟩ | hrest
    · exact Nat.le_add_right _ _
    · have hle := ih hrest (drop_behindItem hdata) (not_leftToArray_behindItem hdata)
      rw [behindItem_insertedObjRefCount] at hle
      rw [List.countP_cons]
      omega

end Runs

/-- Where the items of a descriptor start. At index 1 an `L` may have a bracket before it,
which no item put there. -/
def firstItem (data : List UInt8) : ℕ :=
  if data[0]? = some (ascii '[') ∧ data[1]? = some (ascii 'L') then 2 else 1

/-- The bytes behind the first one are items, up to the end, up to a `)`, or up to the last
reference that the scanner loads. -/
def DividesIntoItems (data : List UInt8) : Prop :=
  ∃ (items : List Item) (tail : List UInt8),
    data.drop (firstItem data) = items.flatMap Item.bytes ++ tail ∧
    (tail = [] ∨ tail.head? = some (ascii ')') ∨ paramNum ≤ items.countP Item.isReference)

theorem not_leftToArray_firstItem (data : List UInt8) : ¬ LeftToArray data (firstItem data) := by
  rintro ⟨hat, hbefore⟩
  rw [firstItem] at hat hbefore
  split at hbefore
  case isTrue hskip =>
    -- the byte before the second one is the `L` itself
    rw [hskip.2] at hbefore
    revert hbefore
    decide
  case isFalse hskip =>
    rw [if_neg hskip] at hat
    exact hskip ⟨hbefore, hat⟩

/-- The scan starts as if it started with the first item. -/
theorem scans_firstItem_iff {data : List UInt8} {offset : UInt8} {s : ScanState} :
    Scans data offset ⟨1, 0, 0, []⟩ s ↔ Scans data offset ⟨firstItem data, 0, 0, []⟩ s := by
  rw [firstItem]
  split
  case isFalse => exact Iff.rfl
  case isTrue hskip =>
    obtain ⟨hbracket, hobject⟩ := hskip
    have hplain : ascii 'L' ≠ ascii '[' ∧ ascii 'L' ≠ ascii ')' := by decide
    have hbody : scanBody data offset ⟨1, 0, 0, []⟩ = some (.yield ⟨1, 0, 0, []⟩) := by
      simp only [scanBody, hobject, Option.bind_eq_bind, Option.bind_some, hplain, hbracket,
        Nat.sub_self, ne_eq, not_true_eq_false, and_false, if_false]
      rfl
    have htest : (⟨1, 0, 0, []⟩ : ScanState).i < data.length ∧
        (⟨1, 0, 0, []⟩ : ScanState).insertedObjRefCount < paramNum :=
      ⟨(List.getElem?_eq_some_iff.1 hobject).1, by decide⟩
    constructor
    · intro h
      cases h with
      | stop hstop => exact absurd htest hstop
      | leave _ hdone =>
        rw [hbody] at hdone
        cases hdone
      | turn _ hyield hrest =>
        rw [hbody] at hyield
        cases hyield
        exact hrest
    · exact fun h => .turn htest hbody h

/-- The scan of a descriptor ends, with all reads inside, when no item is cut off. -/
theorem exists_scans_iff {data : List UInt8} {offset : UInt8} :
    (∃ s, Scans data offset ⟨1, 0, 0, []⟩ s) ↔ DividesIntoItems data := by
  simp only [scans_firstItem_iff]
  have hleft := not_leftToArray_firstItem data
  constructor
  · rintro ⟨s, h⟩
    obtain ⟨items, tail, hdata, hcount, -, hend⟩ := h.exists_items hleft
    rw [hcount, Nat.zero_add] at hend
    exact ⟨items, tail, hdata, hend⟩
  · rintro ⟨items, tail, hdata, hend⟩
    exact exists_scans_of_items offset hdata hleft (by simpa using hend)

/-- `non_static_local_val_offset`. -/
def Method.nonStaticLocalValOffset (method : Method) : UInt8 :=
  if method.isStatic then 0 else 1

/-- The turn of the hook for a method gets to the end of the scan, or to a `continue` before
it, with every read inside the descriptor. -/
def Method.Scanned (method : Method) : Prop :=
  functionFiltered method = true ∨
    ∃ c, method.descriptor[1]? = some c ∧
      (c = ascii ')' ∨ method.code = none ∨
        ∃ s, Scans method.descriptor method.nonStaticLocalValOffset ⟨1, 0, 0, []⟩ s)

/-- The hook returns exactly on the methods that it can scan. -/
theorem instrumentMethod_iff_scanned (prefetchMethodIndex : BitVec 16) (method : Method) :
    (∃ method', instrumentMethod prefetchMethodIndex method = some method') ↔
      method.Scanned := by
  rw [Method.Scanned]
  cases hfilter : functionFiltered method with
  | true => simp [instrumentMethod, hfilter]
  | false =>
    cases hat : method.descriptor[1]? with
    | none => simp [instrumentMethod, hfilter, hat]
    | some c =>
      by_cases hclose : c = ascii ')'
      · simp [instrumentMethod, hfilter, hat, hclose]
      · cases hcode : method.code with
        | none => simp [instrumentMethod, hfilter, hat, hcode]
        | some code =>
          simp only [scans_iff_scanDescriptor, Method.nonStaticLocalValOffset]
          cases hscan : scanDescriptor method.descriptor (if method.isStatic then 0 else 1) <;>
            simp [instrumentMethod, hfilter, hat, hclose, hcode, hscan]

/-- For every method, whatever the bytes of its descriptor: the hook gets through its turn,
and the scan ends with every read inside the descriptor, exactly when the method is filtered
by its name or its descriptor has an index 1 and none of its items is cut off before the scan
is over. The items do not matter when the scan does not start, for a method without
parameters or without code. -/
theorem scanned_iff_dividesIntoItems (prefetchMethodIndex : BitVec 16) (method : Method) :
    ((∃ method', instrumentMethod prefetchMethodIndex method = some method') ∧
        method.Scanned) ↔
      functionFiltered method = true ∨
        2 ≤ method.descriptor.length ∧
          (method.descriptor[1]? = some (ascii ')') ∨ method.code = none ∨
            DividesIntoItems method.descriptor) := by
  rw [instrumentMethod_iff_scanned, and_self_iff, Method.Scanned, exists_scans_iff]
  refine or_congr_right ?_
  constructor
  · rintro ⟨c, hat, hcases⟩
    refine ⟨(List.getElem?_eq_some_iff.1 hat).1, hcases.imp_left ?_⟩
    rintro rfl
    exact hat
  · rintro ⟨hlength, hcases⟩
    refine ⟨_, List.getElem?_eq_getElem hlength, hcases.imp_left ?_⟩
    intro hclose
    rwa [List.getElem?_eq_getElem hlength, Option.some.injEq] at hclose

/-- A method whose descriptor stops behind a bracket. -/
def cutOffArray : Method :=
  ⟨"store", [ascii '(', ascii '['], true, some ⟨1, [.other [177]]⟩⟩

/-- The loop over the brackets of `([` reads index 2. -/
theorem cutOffArray_is_read_beyond :
    ¬ ((∃ method', instrumentMethod 7 cutOffArray = some method') ∧ cutOffArray.Scanned) := by
  rintro ⟨⟨method', h⟩, -⟩
  have hnone : instrumentMethod 7 cutOffArray = none := by decide
  rw [hnone] at h
  cases h

end SystemDev.Instrument
