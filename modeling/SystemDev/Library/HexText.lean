import Mathlib.Data.BitVec
import Mathlib.Data.List.TakeWhile
import Mathlib.Data.Nat.Digits.Lemmas

/-!
# Hexadecimal numbers in text

`printf` writes a number as lower-case hexadecimal digits, padded with zeros to a width. `scanf`
reads one back with `%x`: it skips white space, takes a sign and a `0x` if they are there, and
then as many digits as follow. There must be one, except behind a `0x`, whose zero glibc takes for
a digit. The value is that of `strtoull`, which stops at the largest word. Text is a list of bytes.

A number as `scanf` takes it is described by its parts (`NumberParts`), and a row of numbers
between separators by `HexFields`; both describe exactly what the scanner reads.

## Main results

* `scanHex_of_parts`, `hexNumber_of_scanHex` — what `%x` reads
* `scanHex_hexText` — a printed number reads back
* `length_scanFields_eq_iff` — when a row of numbers is read to its end
-/

namespace SystemDev.Library

/-- `isspace`. -/
def isSpace (c : UInt8) : Bool := c = 0x20 || (0x09 ≤ c && c ≤ 0x0d)

/-- The value of a hexadecimal digit of either case. -/
def digitValue (c : UInt8) : Option ℕ :=
  if 0x30 ≤ c ∧ c ≤ 0x39 then some (c.toNat - 0x30)
  else if 0x61 ≤ c ∧ c ≤ 0x66 then some (c.toNat - 0x61 + 10)
  else if 0x41 ≤ c ∧ c ≤ 0x46 then some (c.toNat - 0x41 + 10)
  else none

/-- `isxdigit`. -/
def isHex (c : UInt8) : Bool := (digitValue c).isSome

/-! ### Printing -/

/-- The lower-case digit of a value. -/
def hexDigit (d : ℕ) : UInt8 := if d < 10 then UInt8.ofNat (0x30 + d) else UInt8.ofNat (0x57 + d)

/-- `%0<width>x`, for a positive width. -/
def hexText (width n : ℕ) : List UInt8 :=
  ((Nat.digits 16 n).reverse.map hexDigit).leftpad width 0x30

theorem digitValue_hexDigit {d : ℕ} (hd : d < 16) : digitValue (hexDigit d) = some d := by
  have hall : ∀ d ∈ List.range 16, digitValue (hexDigit d) = some d := by decide
  exact hall d (List.mem_range.mpr hd)

theorem length_hexText {width n : ℕ} (hn : n < 16 ^ width) : (hexText width n).length = width := by
  have hdigits : (Nat.digits 16 n).length ≤ width :=
    (Nat.digits_length_le_iff (by decide) n).mpr hn
  rw [hexText, List.length_leftpad, List.length_map, List.length_reverse, max_eq_left hdigits]

/-- Only digits are printed. -/
theorem isHex_of_mem_hexText {width n : ℕ} {c : UInt8} (hc : c ∈ hexText width n) :
    isHex c = true := by
  rcases List.mem_append.mp hc with hpad | hdigit
  · rw [List.eq_of_mem_replicate hpad]
    decide
  · obtain ⟨d, hd, rfl⟩ := List.mem_map.mp hdigit
    have hlt : d < 16 := Nat.digits_lt_base (by decide) (List.mem_reverse.mp hd)
    rw [isHex, digitValue_hexDigit hlt]
    rfl

/-! ### Scanning -/

/-- The number that hexadecimal digits write. -/
def hexValue (digits : List UInt8) : ℕ :=
  digits.foldl (fun v c => 16 * v + (digitValue c).getD 0) 0

/-- `strtoull` on a sign and a number: too large a one gives `ULLONG_MAX`, a minus sign negates
in the unsigned type. -/
def strtoull (minus : Bool) (v : ℕ) : BitVec 64 :=
  if 2 ^ 64 ≤ v then BitVec.allOnes 64
  else if minus then -BitVec.ofNat 64 v else BitVec.ofNat 64 v

/-- Take a sign; `true` is a minus. -/
def takeSign (s : List UInt8) : Bool × List UInt8 :=
  match s with
  | [] => (false, s)
  | c :: rest => if c = 0x2d then (true, rest) else if c = 0x2b then (false, rest) else (false, s)

/-- Take a `0x` or `0X`; `true` if there is one. It belongs to the number even if no digit
follows. -/
def takeBase (s : List UInt8) : Bool × List UInt8 :=
  match s with
  | c :: d :: rest => if c = 0x30 ∧ (d = 0x78 ∨ d = 0x58) then (true, rest) else (false, s)
  | _ => (false, s)

/-- The conversion `%x`: the value and the text behind it, `none` if nothing matches. -/
def scanHex (s : List UInt8) : Option (BitVec 64 × List UInt8) :=
  let signed := takeSign (s.dropWhile isSpace)
  let based := takeBase signed.2
  let digits := based.2.takeWhile isHex
  -- the zero of a `0x` has been read, so that no further digit is needed
  if digits = [] ∧ based.1 = false then none
  else some (strtoull signed.1 (hexValue digits), based.2.dropWhile isHex)

/-- Up to `n` conversions `%x` with `sep` between them: the values in order, until one of them
or a separator does not match. -/
def scanFields (sep : UInt8) : ℕ → List UInt8 → List (BitVec 64)
  | 0, _ => []
  | n + 1, s =>
    match scanHex s with
    | none => []
    | some (v, rest) =>
      v :: if rest.head? = some sep then scanFields sep n rest.tail else []

/-- The parts of a number in text, and that it ends where the digits do. -/
structure NumberParts (spaces sign base digits rest : List UInt8) : Prop where
  all_space : ∀ c ∈ spaces, isSpace c = true
  sign_cases : sign = [] ∨ sign = [0x2b] ∨ sign = [0x2d]
  base_cases : base = [] ∨ base = [0x30, 0x78] ∨ base = [0x30, 0x58]
  digits_ne_nil : base = [] → digits ≠ []
  all_hex : ∀ c ∈ digits, isHex c = true
  ends : ∀ c, rest.head? = some c → isHex c = false
  no_base : base = [] → ∀ tail, digits ++ rest ≠ 0x30 :: 0x78 :: tail ∧
    digits ++ rest ≠ 0x30 :: 0x58 :: tail

/-- The text begins with a number, and `rest` follows it. -/
def HexNumber (s rest : List UInt8) : Prop :=
  ∃ spaces sign base digits, s = spaces ++ (sign ++ (base ++ (digits ++ rest))) ∧
    NumberParts spaces sign base digits rest

/-- The text begins with `n` numbers, separated by `sep`. -/
def HexFields (sep : UInt8) : ℕ → List UInt8 → Prop
  | 0, _ => True
  | n + 1, s => ∃ rest, HexNumber s rest ∧
      (n = 0 ∨ ∃ rest', rest = sep :: rest' ∧ HexFields sep n rest')

theorem takeWhile_append_of_head {p : UInt8 → Bool} {l rest : List UInt8}
    (hl : ∀ c ∈ l, p c = true) (hrest : ∀ c, rest.head? = some c → p c = false) :
    (l ++ rest).takeWhile p = l ∧ (l ++ rest).dropWhile p = rest := by
  rw [List.takeWhile_append_of_pos hl, List.dropWhile_append_of_pos hl]
  cases rest with
  | nil => simp
  | cons c rest => simp [hrest c rfl]

/-- A digit is no space, no sign and no `x`. -/
theorem not_special_of_isHex {c : UInt8} (hc : isHex c = true) :
    isSpace c = false ∧ c ≠ 0x2b ∧ c ≠ 0x2d ∧ c ≠ 0x78 ∧ c ≠ 0x58 := by
  have hall : ∀ c : Fin 256, isHex (UInt8.ofNat c) = true → isSpace (UInt8.ofNat c) = false ∧
      UInt8.ofNat c ≠ 0x2b ∧ UInt8.ofNat c ≠ 0x2d ∧ UInt8.ofNat c ≠ 0x78 ∧
      UInt8.ofNat c ≠ 0x58 := by decide +kernel
  have hof : UInt8.ofNat c.toNat = c := UInt8.ofNat_toNat
  have hspecial := hall ⟨c.toNat, c.toNat_lt⟩
  simp only [hof] at hspecial
  exact hspecial hc

section Parts

variable {spaces sign base digits rest : List UInt8}

/-- What a number starts with, behind white space and sign. -/
theorem NumberParts.head_number (h : NumberParts spaces sign base digits rest) :
    ∃ c t, base ++ (digits ++ rest) = c :: t ∧ isHex c = true := by
  rcases h.base_cases with rfl | rfl | rfl
  · obtain ⟨c, ds, rfl⟩ := List.exists_cons_of_ne_nil (h.digits_ne_nil rfl)
    exact ⟨c, ds ++ rest, rfl, h.all_hex c List.mem_cons_self⟩
  · exact ⟨_, _, rfl, by decide⟩
  · exact ⟨_, _, rfl, by decide⟩

theorem NumberParts.takeBase_eq (h : NumberParts spaces sign base digits rest) :
    takeBase (base ++ (digits ++ rest)) = (decide (base ≠ []), digits ++ rest) := by
  rcases h.base_cases with rfl | rfl | rfl
  · have hnone := h.no_base rfl
    rw [List.nil_append]
    generalize digits ++ rest = s at hnone
    match s with
    | [] => rfl
    | [_] => rfl
    | c :: d :: tail =>
      refine if_neg ?_
      rintro ⟨rfl, rfl | rfl⟩
      · exact (hnone tail).1 rfl
      · exact (hnone tail).2 rfl
  · rfl
  · rfl

theorem NumberParts.takeSign_eq (h : NumberParts spaces sign base digits rest) :
    takeSign (sign ++ (base ++ (digits ++ rest))) =
      (decide (sign = [0x2d]), base ++ (digits ++ rest)) := by
  obtain ⟨c, t, hhead, hc⟩ := h.head_number
  obtain ⟨-, hplus, hminus, -⟩ := not_special_of_isHex hc
  rcases h.sign_cases with rfl | rfl | rfl
  · rw [hhead, List.nil_append, takeSign, if_neg hminus, if_neg hplus]
    rfl
  · rfl
  · rfl

theorem NumberParts.dropWhile_eq (h : NumberParts spaces sign base digits rest) :
    (spaces ++ (sign ++ (base ++ (digits ++ rest)))).dropWhile isSpace =
      sign ++ (base ++ (digits ++ rest)) := by
  refine (takeWhile_append_of_head h.all_space fun c hc => ?_).2
  rcases h.sign_cases with rfl | rfl | rfl
  · obtain ⟨d, t, hhead, hd⟩ := h.head_number
    rw [hhead] at hc
    obtain rfl := Option.some_inj.mp hc
    exact (not_special_of_isHex hd).1
  · obtain rfl := Option.some_inj.mp hc
    decide
  · obtain rfl := Option.some_inj.mp hc
    decide

/-- `%x` reads a number by its parts. -/
theorem scanHex_of_parts (h : NumberParts spaces sign base digits rest) :
    scanHex (spaces ++ (sign ++ (base ++ (digits ++ rest)))) =
      some (strtoull (decide (sign = [0x2d])) (hexValue digits), rest) := by
  obtain ⟨htake, hdrop⟩ := takeWhile_append_of_head h.all_hex h.ends
  have hnumber : ¬ (digits = [] ∧ decide (base ≠ []) = false) := by
    rintro ⟨hdigits, hbase⟩
    exact h.digits_ne_nil (by simpa using hbase) hdigits
  simp only [scanHex, h.dropWhile_eq, h.takeSign_eq, h.takeBase_eq, htake, hdrop, if_neg hnumber]

end Parts

theorem takeSign_parts (s : List UInt8) :
    ∃ sign, s = sign ++ (takeSign s).2 ∧ (sign = [] ∨ sign = [0x2b] ∨ sign = [0x2d]) := by
  match s with
  | [] => exact ⟨[], rfl, .inl rfl⟩
  | c :: rest =>
    rw [takeSign]
    split_ifs with hminus hplus
    · exact ⟨[0x2d], by rw [hminus]; rfl, .inr (.inr rfl)⟩
    · exact ⟨[0x2b], by rw [hplus]; rfl, .inr (.inl rfl)⟩
    · exact ⟨[], rfl, .inl rfl⟩

theorem takeBase_parts (s : List UInt8) :
    ∃ base, s = base ++ (takeBase s).2 ∧ (takeBase s).1 = decide (base ≠ []) ∧
      (base = [] ∨ base = [0x30, 0x78] ∨ base = [0x30, 0x58]) ∧
      (base = [] → ∀ tail, s ≠ 0x30 :: 0x78 :: tail ∧ s ≠ 0x30 :: 0x58 :: tail) := by
  match s with
  | [] => exact ⟨[], rfl, rfl, .inl rfl, fun _ _ => ⟨nofun, nofun⟩⟩
  | [_] => exact ⟨[], rfl, rfl, .inl rfl, fun _ _ => ⟨nofun, nofun⟩⟩
  | c :: d :: rest =>
    rw [takeBase]
    split_ifs with hbase
    · obtain ⟨rfl, rfl | rfl⟩ := hbase
      · exact ⟨[0x30, 0x78], rfl, rfl, .inr (.inl rfl), nofun⟩
      · exact ⟨[0x30, 0x58], rfl, rfl, .inr (.inr rfl), nofun⟩
    · refine ⟨[], rfl, rfl, .inl rfl, fun _ tail => ⟨fun heq => hbase ?_, fun heq => hbase ?_⟩⟩
      · cases heq
        exact ⟨rfl, .inl rfl⟩
      · cases heq
        exact ⟨rfl, .inr rfl⟩

/-- What `%x` reads is a number. -/
theorem hexNumber_of_scanHex {s rest : List UInt8} {v : BitVec 64}
    (h : scanHex s = some (v, rest)) : HexNumber s rest := by
  obtain ⟨sign, hsign, hsigns⟩ := takeSign_parts (s.dropWhile isSpace)
  obtain ⟨base, hbase, htaken, hbases, hnone⟩ :=
    takeBase_parts (takeSign (s.dropWhile isSpace)).2
  simp only [scanHex, htaken] at h
  generalize (takeBase (takeSign (s.dropWhile isSpace)).2).2 = t at h hbase
  split_ifs at h with hdigits
  obtain ⟨-, rfl⟩ := Prod.mk.injEq .. ▸ Option.some_inj.mp h
  have ht : t.takeWhile isHex ++ t.dropWhile isHex = t := List.takeWhile_append_dropWhile
  refine ⟨s.takeWhile isSpace, sign, base, t.takeWhile isHex, ?_, ?_⟩
  · rw [ht, ← hbase, ← hsign, List.takeWhile_append_dropWhile]
  · refine ⟨fun c hc => List.mem_takeWhile_imp hc, hsigns, hbases, fun hnil hempty => ?_,
      fun c hc => List.mem_takeWhile_imp hc, fun c hc => ?_, fun hnil => ?_⟩
    · exact hdigits ⟨hempty, by simp [hnil]⟩
    · have hhead := List.head?_dropWhile_not isHex t
      rw [hc] at hhead
      simpa using hhead
    · subst hnil
      rw [ht]
      rw [List.nil_append] at hbase
      exact hbase ▸ hnone rfl

/-- A row of numbers is read to its end exactly if it is there. -/
theorem length_scanFields_eq_iff (sep : UInt8) (n : ℕ) (s : List UInt8) :
    (scanFields sep n s).length = n ↔ HexFields sep n s := by
  induction n generalizing s with
  | zero => exact iff_of_true rfl trivial
  | succ n ih =>
    rw [scanFields, HexFields]
    constructor
    · intro hlen
      cases hscan : scanHex s with
      | none => simp [hscan] at hlen
      | some found =>
        obtain ⟨v, rest⟩ := found
        refine ⟨rest, hexNumber_of_scanHex hscan, ?_⟩
        simp only [hscan, List.length_cons, Nat.add_right_cancel_iff] at hlen
        split_ifs at hlen with hsep
        · obtain ⟨tail, rfl⟩ := List.head?_eq_some_iff.mp hsep
          exact .inr ⟨tail, rfl, (ih tail).mp hlen⟩
        · exact .inl hlen.symm
    · rintro ⟨rest, ⟨spaces, sign, base, digits, rfl, hparts⟩, hnext⟩
      rw [scanHex_of_parts hparts]
      simp only [List.length_cons, Nat.add_right_cancel_iff]
      rcases hnext with rfl | ⟨tail, rfl, htail⟩
      · split_ifs <;> rfl
      · rw [if_pos List.head?_cons]
        exact (ih tail).mpr htail

/-! ### Printed numbers read back -/

theorem hexValue_hexText (width n : ℕ) : hexValue (hexText width n) = n := by
  have hzeros : ∀ k, (List.replicate k (0x30 : UInt8)).foldl
      (fun v c => 16 * v + (digitValue c).getD 0) 0 = 0 := by
    intro k
    induction k with
    | zero => rfl
    | succ k ih => exact ih
  have hdigits : ∀ l : List ℕ, (∀ d ∈ l, d < 16) →
      (l.map hexDigit).reverse.foldl (fun v c => 16 * v + (digitValue c).getD 0) 0 =
        Nat.ofDigits 16 l := by
    intro l hl
    induction l with
    | nil => rfl
    | cons d l ih =>
      rw [List.map_cons, List.reverse_cons, List.foldl_append,
        ih fun d hd => hl d (List.mem_cons_of_mem _ hd), List.foldl_cons, List.foldl_nil,
        digitValue_hexDigit (hl d List.mem_cons_self), Nat.ofDigits_cons, Option.getD_some]
      exact add_comm _ _
  rw [hexValue, hexText, List.leftpad, List.foldl_append, hzeros, List.map_reverse,
    hdigits _ fun d hd => Nat.digits_lt_base (by decide) hd, Nat.ofDigits_digits]

/-- A number printed with at least two digits reads back. -/
theorem scanHex_hexText {width n : ℕ} {rest : List UInt8} (hwidth : 2 ≤ width)
    (hn : n < 2 ^ 64) (hends : ∀ c, rest.head? = some c → isHex c = false) :
    scanHex (hexText width n ++ rest) = some (BitVec.ofNat 64 n, rest) := by
  have hlong : 2 ≤ (hexText width n).length := by
    rw [hexText, List.length_leftpad]
    exact hwidth.trans (le_max_left ..)
  have hparts : NumberParts [] [] [] (hexText width n) rest := by
    refine ⟨nofun, .inl rfl, .inl rfl, fun _ hnil => ?_, fun c hc => isHex_of_mem_hexText hc, hends,
      fun _ tail => ?_⟩
    · rw [hnil] at hlong
      exact absurd hlong (by decide)
    · -- the second character is a digit
      obtain ⟨c, d, ds, hds⟩ : ∃ c d ds, hexText width n = c :: d :: ds := by
        match hexText width n, hlong with
        | c :: d :: ds, _ => exact ⟨c, d, ds, rfl⟩
      have hd : isHex d = true :=
        isHex_of_mem_hexText (hds ▸ List.mem_cons_of_mem _ List.mem_cons_self)
      obtain ⟨-, -, -, hx, hX⟩ := not_special_of_isHex hd
      rw [hds]
      exact ⟨fun heq => hx (by cases heq; rfl), fun heq => hX (by cases heq; rfl)⟩
  have hscan := scanHex_of_parts hparts
  rw [hexValue_hexText, strtoull, if_neg (by omega)] at hscan
  exact hscan

end SystemDev.Library
