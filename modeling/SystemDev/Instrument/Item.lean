import Mathlib.Data.List.Basic
import SystemDev.Instrument.Scanner

/-!
# The items of a descriptor

What the scanner takes for one parameter, whether or not the descriptor is one of the
grammar: a single byte, an array of base types, or a reference that ends with the first `;`.
A turn of the loop that reads only inside the descriptor consumes one item, and an item that
stands in the descriptor as a whole is consumed by one turn.

An `L` behind a bracket is a byte like others: the scanner takes it for a part of an array
that is already consumed.

## Main definitions

* `Item` — what one turn of the scan consumes
* `ScanState.past` — the state behind an item

## Main results

* `scanBody_item` — a turn on an item
* `exists_item_of_scanBody` — every turn that goes on is one on an item
-/

namespace SystemDev.Instrument

open SystemDev.Library

/-- The test of `is_primive_type` on a byte. -/
def primitiveSymbol (c : UInt8) : Bool :=
  (['S', 'I', 'F', 'Z', 'B', 'C', 'J', 'D'].map ascii).contains c

/-- What the scanner takes for one parameter. The brackets of an array are counted without
the first one. -/
inductive Item
  | symbol (c : UInt8) (plain : c ≠ ascii '[' ∧ c ≠ ascii 'L' ∧ c ≠ ascii ')')
  | primitiveArray (depth : ℕ) (c : UInt8) (primitive : primitiveSymbol c = true)
  | objectArray (depth : ℕ) (c : UInt8) (name : List UInt8)
      (component : c ≠ ascii '[' ∧ primitiveSymbol c = false) (closed : ascii ';' ∉ name)
  | object (c : UInt8) (name : List UInt8) (closed : ascii ';' ∉ name)

namespace Item

/-- The bytes of an item. -/
def bytes : Item → List UInt8
  | symbol c _ => [c]
  | primitiveArray depth c _ => ascii '[' :: (List.replicate depth (ascii '[') ++ [c])
  | objectArray depth c name _ _ =>
      ascii '[' :: (List.replicate depth (ascii '[') ++ c :: (name ++ [ascii ';']))
  | object c name _ => ascii 'L' :: c :: (name ++ [ascii ';'])

/-- Whether the scanner loads the item. -/
def isReference : Item → Bool
  | symbol _ _ => false
  | primitiveArray _ _ _ => false
  | objectArray _ _ _ _ _ => true
  | object _ _ _ => true

/-- The slots that the scanner counts for the item. -/
def slots : Item → UInt8
  | symbol c _ => primitiveSlots c
  | _ => 1

theorem length_bytes_pos (item : Item) : 0 < item.bytes.length := by
  cases item <;> simp [bytes]

end Item

/-- The state behind an item, before the loop's `i++`. -/
def ScanState.past (s : ScanState) (offset : UInt8) (item : Item) : ScanState :=
  let s' := if item.isReference then s.insertReferenceLoad offset else s
  { s' with i := s.i + item.bytes.length - 1, paramCount := s.paramCount + item.slots }

/-- The index is at an `L` that the scanner takes for a part of an array. -/
def LeftToArray (data : List UInt8) (i : ℕ) : Prop :=
  data[i]? = some (ascii 'L') ∧ data[i - 1]? = some (ascii '[')

section Turn

variable {data tail : List UInt8} {offset : UInt8} {s s' : ScanState} {i : ℕ}

theorem primitiveSymbol_ne_bracket {c : UInt8} (h : primitiveSymbol c = true) :
    c ≠ ascii '[' := by
  rintro rfl
  revert h
  decide

theorem ne_semicolon_of_notMem {name : List UInt8} (h : ascii ';' ∉ name) :
    ∀ c ∈ name, (c != ascii ';') = true := by
  intro c hc
  rw [bne_iff_ne]
  rintro rfl
  exact h hc

/-- No item ends with a bracket. -/
theorem Item.getLast?_bytes_ne (item : Item) : item.bytes.getLast? ≠ some (ascii '[') := by
  have hsemicolon : ascii ';' ≠ ascii '[' := by decide
  cases item with
  | symbol c plain => simpa [bytes] using plain.1
  | primitiveArray depth c primitive =>
    simpa [bytes, List.getLast?_cons, List.getLast?_append] using
      primitiveSymbol_ne_bracket primitive
  | objectArray depth c name _ _ =>
    simpa [bytes, List.getLast?_cons, List.getLast?_append] using hsemicolon
  | object c name _ =>
    simpa [bytes, List.getLast?_cons, List.getLast?_append] using hsemicolon

/-- The first loop of `parse_object_array` stops behind the brackets. -/
theorem advance_brackets {depth : ℕ} {c : UInt8} {rest : List UInt8} (hc : c ≠ ascii '[')
    (h : data.drop i = ascii '[' :: (List.replicate depth (ascii '[') ++ c :: rest)) :
    advance (· == ascii '[') data i = some (i + depth + 1) ∧
      data.drop (i + depth + 1) = c :: rest := by
  have hbehind := drop_succ_of_drop h
  constructor
  · have hskip : ∀ b ∈ List.replicate depth (ascii '['), (b == ascii '[') = true := by
      intro b hb
      rw [beq_iff_eq, List.eq_of_mem_replicate hb]
    have hadvance := advance_append hbehind hskip (beq_eq_false_iff_ne.2 hc)
    rwa [List.length_replicate] at hadvance
  · have hdrop : data.drop (i + 1 + depth) = c :: rest := by
      rw [← List.drop_drop, hbehind]
      simp
    rwa [Nat.add_right_comm] at hdrop

/-- A loop that looks for the `;` of a name, and has consumed the byte before the name. -/
theorem advance_name {c : UInt8} {name : List UInt8} (hclosed : ascii ';' ∉ name)
    (h : data.drop i = c :: (name ++ ascii ';' :: tail)) :
    advance (· != ascii ';') data i = some (i + name.length + 1) :=
  advance_append (drop_succ_of_drop h) (ne_semicolon_of_notMem hclosed) (by decide)

theorem isPrimiveType_of_drop {c : UInt8} (h : data.drop i = c :: tail) :
    isPrimiveType data i = some (primitiveSymbol c) := by
  rw [isPrimiveType, getElem?_of_drop h]
  rfl

/-- A turn on an item. -/
theorem scanBody_item (item : Item) (hdata : data.drop s.i = item.bytes ++ tail)
    (hleft : ¬ LeftToArray data s.i) :
    scanBody data offset s = some (.yield (s.past offset item)) := by
  have hbracket : ascii 'L' ≠ ascii '[' := by decide
  cases item with
  | symbol c plain =>
    have hat := getElem?_of_drop hdata
    simp [scanBody, hat, plain, ScanState.past, Item.isReference, Item.bytes, Item.slots]
  | primitiveArray depth c primitive =>
    have hsplit : data.drop s.i =
        ascii '[' :: (List.replicate depth (ascii '[') ++ c :: tail) := by
      rw [hdata, Item.bytes]
      simp
    obtain ⟨hskip, hbehind⟩ := advance_brackets (primitiveSymbol_ne_bracket primitive) hsplit
    simp [scanBody, getElem?_of_drop hsplit, parseObjectArray, hskip,
      isPrimiveType_of_drop hbehind, primitive, ScanState.past, Item.isReference, Item.bytes,
      Item.slots]
    omega
  | objectArray depth c name component closed =>
    have hsplit : data.drop s.i = ascii '[' ::
        (List.replicate depth (ascii '[') ++ c :: (name ++ ascii ';' :: tail)) := by
      rw [hdata, Item.bytes]
      simp
    obtain ⟨hskip, hbehind⟩ := advance_brackets component.1 hsplit
    have hclose := advance_name closed hbehind
    simp [scanBody, getElem?_of_drop hsplit, parseObjectArray, hskip,
      isPrimiveType_of_drop hbehind, component.2, hclose, ScanState.past, Item.isReference,
      Item.bytes, Item.slots, ScanState.insertReferenceLoad]
    omega
  | object c name closed =>
    have hsplit : data.drop s.i = ascii 'L' :: c :: (name ++ ascii ';' :: tail) := by
      rw [hdata, Item.bytes]
      simp
    have hat := getElem?_of_drop hsplit
    have hbefore : data[s.i - 1]? ≠ some (ascii '[') := fun h => hleft ⟨hat, h⟩
    -- the byte behind the `L` is consumed without a look at it
    have hclose := advance_name closed (drop_succ_of_drop hsplit)
    simp [scanBody, hat, hbracket, hbefore, parseObjectInstance, hclose, ScanState.past,
      Item.isReference, Item.bytes, Item.slots, ScanState.insertReferenceLoad]
    omega

/-- The helper for arrays consumes an array item. -/
theorem exists_item_of_parseObjectArray {j : ℕ} {objArray : Bool}
    (hat : data[i]? = some (ascii '['))
    (h : parseObjectArray data i = some (j, objArray)) :
    ∃ (item : Item) (tail : List UInt8), data.drop i = item.bytes ++ tail ∧
      item.isReference = objArray ∧ item.slots = 1 ∧ j = i + item.bytes.length - 1 := by
  simp only [parseObjectArray, Option.bind_eq_bind, Option.bind_eq_some_iff] at h
  obtain ⟨k, hk, primitive, hprimitive, h⟩ := h
  obtain ⟨brackets, c, rest, hbrackets, hskip, hstop, rfl⟩ := exists_of_advance hk
  have hreplicate : brackets = List.replicate brackets.length (ascii '[') :=
    List.eq_replicate_of_mem fun b hb => beq_iff_eq.1 (hskip b hb)
  have hsplit := (drop_of_getElem? hat).trans (congrArg (ascii '[' :: ·) hbrackets)
  have hc : c ≠ ascii '[' := beq_eq_false_iff_ne.1 hstop
  rw [hreplicate] at hsplit
  obtain ⟨-, hbehind⟩ := advance_brackets hc hsplit
  rw [isPrimiveType_of_drop hbehind, Option.some.injEq] at hprimitive
  split at h
  case isTrue hsymbol =>
    cases h
    refine ⟨.primitiveArray brackets.length c (hprimitive.trans hsymbol), rest, ?_, rfl, rfl, ?_⟩
    · rw [hsplit, Item.bytes]
      simp
    · simp [Item.bytes]
      omega
  case isFalse hsymbol =>
    obtain ⟨l, hl, h⟩ := Option.bind_eq_some_iff.1 h
    cases h
    obtain ⟨name, d, tail, hname, hopen, hd, rfl⟩ := exists_of_advance hl
    have hclosed : ascii ';' ∉ name := fun hmem => by simpa using hopen _ hmem
    obtain rfl : d = ascii ';' := by simpa using hd
    have hother : primitiveSymbol c = false := hprimitive.trans (Bool.eq_false_iff.2 hsymbol)
    refine ⟨.objectArray brackets.length c name ⟨hc, hother⟩ hclosed, tail, ?_, rfl, rfl, ?_⟩
    · rw [drop_succ_of_drop hbehind] at hname
      rw [hsplit, hname, Item.bytes]
      simp
    · simp [Item.bytes]
      omega

/-- The helper for instances consumes an object item. -/
theorem exists_item_of_parseObjectInstance {j : ℕ} (hat : data[i]? = some (ascii 'L'))
    (h : parseObjectInstance data i = some j) :
    ∃ (item : Item) (tail : List UInt8), data.drop i = item.bytes ++ tail ∧
      item.isReference = true ∧ item.slots = 1 ∧ j = i + item.bytes.length - 1 := by
  obtain ⟨name, d, tail, hname, hopen, hd, rfl⟩ := exists_of_advance h
  have hclosed : ascii ';' ∉ name := fun hmem => by simpa using hopen _ hmem
  obtain rfl : d = ascii ';' := by simpa using hd
  have hsplit := drop_of_getElem? hat
  -- the loop found a `;` two bytes on, so the byte between them is there
  obtain ⟨c, hc⟩ : ∃ c, data[i + 1]? = some c := by
    refine ⟨_, List.getElem?_eq_getElem ?_⟩
    have hlength := congrArg List.length hname
    simp only [List.length_drop, List.length_append, List.length_cons] at hlength
    omega
  refine ⟨.object c name hclosed, tail, ?_, rfl, rfl, ?_⟩
  · rw [hsplit, drop_of_getElem? hc, hname, Item.bytes]
    simp
  · simp [Item.bytes]
    omega

/-- Every turn that goes on is one on an item. -/
theorem exists_item_of_scanBody (h : scanBody data offset s = some (.yield s'))
    (hleft : ¬ LeftToArray data s.i) :
    ∃ (item : Item) (tail : List UInt8), data.drop s.i = item.bytes ++ tail ∧
      s' = s.past offset item := by
  simp only [scanBody, Option.bind_eq_bind, Option.bind_eq_some_iff] at h
  obtain ⟨c, hat, h⟩ := h
  split at h
  case isTrue hc =>
    subst hc
    obtain ⟨⟨j, objArray⟩, hj, h⟩ := Option.bind_eq_some_iff.1 h
    obtain ⟨item, tail, hsplit, rfl, hslots, rfl⟩ := exists_item_of_parseObjectArray hat hj
    refine ⟨item, tail, hsplit, ?_⟩
    cases h
    rw [ScanState.past, hslots]
    cases item.isReference <;> rfl
  case isFalse hc =>
    split at h
    case isTrue hobject =>
      obtain ⟨rfl, -⟩ := hobject
      obtain ⟨j, hj, h⟩ := Option.bind_eq_some_iff.1 h
      obtain ⟨item, tail, hsplit, hreference, hslots, rfl⟩ :=
        exists_item_of_parseObjectInstance hat hj
      refine ⟨item, tail, hsplit, ?_⟩
      cases h
      rw [ScanState.past, hslots, hreference]
      rfl
    case isFalse hobject =>
      have hplain : c ≠ ascii 'L' := by
        rintro rfl
        exact hleft ⟨hat, not_not.1 fun hne => hobject ⟨rfl, hne⟩⟩
      split at h
      case isTrue hclose => simp at h
      case isFalse hclose =>
        refine ⟨.symbol c ⟨hc, hplain, hclose⟩, data.drop (s.i + 1), drop_of_getElem? hat, ?_⟩
        cases h
        rfl

/-- A turn on a `)` leaves the loop. -/
theorem scanBody_close_at (h : data[s.i]? = some (ascii ')')) :
    scanBody data offset s = some (.done s) := by
  have hplain : ascii ')' ≠ ascii '[' ∧ ascii ')' ≠ ascii 'L' := by decide
  have hslots : primitiveSlots (ascii ')') = 0 := by decide
  simp [scanBody, h, hplain, hslots]

/-- The loop is left on a `)`. -/
theorem getElem?_of_scanBody_done (h : scanBody data offset s = some (.done s')) :
    data[s.i]? = some (ascii ')') ∧ s' = s := by
  simp only [scanBody, Option.bind_eq_bind, Option.bind_eq_some_iff] at h
  obtain ⟨c, hat, h⟩ := h
  split at h
  · obtain ⟨_, _, h⟩ := Option.bind_eq_some_iff.1 h
    cases h
  · split at h
    · obtain ⟨_, _, h⟩ := Option.bind_eq_some_iff.1 h
      cases h
    · split at h
      case isTrue hclose =>
        subst hclose
        have hslots : primitiveSlots (ascii ')') = 0 := by decide
        rw [hslots] at h
        cases h
        exact ⟨hat, by rw [UInt8.add_zero]⟩
      case isFalse hclose => simp at h

end Turn

end SystemDev.Instrument
