import Mathlib.Data.BitVec
import Mathlib.Data.List.Basic
import Mathlib.Data.Nat.Digits.Defs

/-!
# Reading the free memory

`get_free_mem` takes the second line of `/proc/meminfo` and joins all the digits in it to one
number. It does not look at the label or the unit, and reads both lines through a buffer of sixty
bytes.
`free_mem` divides the number of kilobytes by 2^20 and keeps the quotient in an `int`.

Text is a list of bytes. A number that does not fit into a `long`, which C leaves undefined, is
`none`.
-/

namespace SystemDev.Server

/-- Take a line of at most `room` bytes, its end included. -/
def takeLine : ℕ → List UInt8 → List UInt8 × List UInt8
  | 0, file => ([], file)
  | _ + 1, [] => ([], [])
  | room + 1, c :: file =>
    if c = 10 then ([c], file) else (c :: (takeLine room file).1, (takeLine room file).2)

/-- `fgets`: what goes into a buffer of `size` bytes before the terminating zero, and the rest of
the file. -/
def fgets (size : ℕ) (file : List UInt8) : List UInt8 × List UInt8 := takeLine (size - 1) file

/-- The test of the loop: an ASCII digit. -/
def isDigit (c : UInt8) : Bool := 48 ≤ c && c ≤ 57

/-- The loop body: `res *= 10; res += result[i] - 48`. -/
def readDigit (res : ℕ) (c : UInt8) : Option ℕ :=
  if isDigit c then
    let res' := res * 10 + (c.toNat - 48)
    if res' < 2 ^ 63 then some res' else none
  else some res

/-- `get_free_mem`. The buffer is cleared before the second line is read into it. -/
def getFreeMem (file : List UInt8) : Option ℕ :=
  let file := (fgets 60 file).2
  let line := (fgets 60 file).1
  (line ++ List.replicate (60 - line.length) 0).foldlM readDigit 0

/-- `(int)(get_free_mem() / ONE_MB)`. -/
def measuredGb (file : List UInt8) : Option ℤ :=
  (getFreeMem file).map fun kb => (BitVec.ofNat 32 (kb / 2 ^ 20)).toInt

/-! ### Lines -/

/-- A line that fits into the buffer is read with its end. -/
theorem takeLine_line {room : ℕ} {text rest : List UInt8} (hend : 10 ∉ text)
    (hfits : text.length < room) :
    takeLine room (text ++ 10 :: rest) = (text ++ [10], rest) := by
  induction text generalizing room with
  | nil =>
    obtain ⟨room, rfl⟩ := Nat.exists_eq_add_one.mpr hfits
    rfl
  | cons c text ih =>
    obtain ⟨room, rfl⟩ := Nat.exists_eq_add_one.mpr (Nat.zero_lt_of_lt hfits)
    obtain ⟨hc, htext⟩ := not_or.mp (mt List.mem_cons.mpr hend)
    rw [List.cons_append, takeLine, if_neg (Ne.symm hc), ih htext (Nat.lt_of_succ_lt_succ hfits)]
    rfl

/-! ### Digits -/

/-- A number in decimal. -/
def decimalText (n : ℕ) : List UInt8 := (Nat.toDigits 10 n).map fun c => UInt8.ofNat c.toNat

/-- Text without digits is passed over. -/
theorem foldlM_readDigit_of_none {text : List UInt8} (h : ∀ c ∈ text, isDigit c = false)
    (res : ℕ) : text.foldlM readDigit res = some res := by
  induction text with
  | nil => rfl
  | cons c text ih =>
    rw [List.foldlM_cons, readDigit, h c List.mem_cons_self]
    exact ih fun d hd => h d (List.mem_cons_of_mem c hd)

theorem readDigit_digitChar {res d : ℕ} (hd : d < 10) (hfits : res * 10 + d < 2 ^ 63) :
    readDigit res (UInt8.ofNat d.digitChar.toNat) = some (res * 10 + d) := by
  have hall : ∀ d ∈ List.range 10, isDigit (UInt8.ofNat d.digitChar.toNat) = true ∧
      (UInt8.ofNat d.digitChar.toNat).toNat - 48 = d := by decide
  obtain ⟨hdigit, hvalue⟩ := hall d (List.mem_range.mpr hd)
  rw [readDigit, if_pos hdigit, hvalue]
  exact if_pos hfits

/-- A printed number reads back. -/
theorem foldlM_readDigit_decimalText {n : ℕ} (hn : n < 2 ^ 63) :
    (decimalText n).foldlM readDigit 0 = some n := by
  induction n using Nat.strong_induction_on with
  | _ n ih =>
    have hsplit : n / 10 * 10 + n % 10 = n := by omega
    rcases Nat.lt_or_ge n 10 with hlt | hge
    · have hread := @readDigit_digitChar 0 n hlt (by omega)
      rw [Nat.zero_mul, Nat.zero_add] at hread
      rw [decimalText, Nat.toDigits_of_lt_base hlt, List.map_singleton, List.foldlM_cons, hread]
      rfl
    · -- the digits in front are those of the quotient
      have hfront := ih (n / 10) (by omega) (by omega)
      have hlast := readDigit_digitChar (Nat.mod_lt n (by decide : 0 < 10))
        (by rwa [hsplit] : n / 10 * 10 + n % 10 < 2 ^ 63)
      rw [decimalText, Nat.toDigits_of_base_le (by decide) hge, List.map_append,
        List.foldlM_append, ← decimalText, hfront, Option.bind_eq_bind, Option.bind_some,
        List.map_singleton, List.foldlM_cons, hlast, hsplit]
      rfl

/-! ### The second line -/

/-- Text of a line that is not part of a number. -/
def Wordy (text : List UInt8) : Prop := ∀ c ∈ text, isDigit c = false ∧ c ≠ 10

instance (text : List UInt8) : Decidable (Wordy text) :=
  List.decidableBAll (fun c => isDigit c = false ∧ c ≠ 10) text

theorem not_mem_decimalText (n : ℕ) : 10 ∉ decimalText n := by
  intro hmem
  obtain ⟨c, hc, heq⟩ := List.mem_map.mp hmem
  have hdigit := Nat.isDigit_of_mem_toDigits (by decide) (by decide) hc
  obtain ⟨hlow, hhigh⟩ : 48 ≤ c.toNat ∧ c.toNat ≤ 57 := by
    simpa [Char.isDigit, UInt32.le_iff_toNat_le] using hdigit
  have hvalue : c.toNat % 256 = 10 := congrArg UInt8.toNat heq
  omega

/-- The number on the second line is read, whatever stands around it and on the other lines, as long
as both lines fit into the buffer. -/
theorem getFreeMem_eq {first label unit rest : List UInt8} {n : ℕ} (hfirst : 10 ∉ first)
    (hfirstFits : first.length ≤ 58) (hlabel : Wordy label) (hunit : Wordy unit)
    (hfits : label.length + (decimalText n).length + unit.length ≤ 58) (hn : n < 2 ^ 63) :
    getFreeMem (first ++ 10 :: (label ++ decimalText n ++ unit ++ 10 :: rest)) = some n := by
  have hend : 10 ∉ label ++ decimalText n ++ unit := by
    simp only [List.mem_append, not_or]
    exact ⟨⟨fun h => (hlabel 10 h).2 rfl, not_mem_decimalText n⟩, fun h => (hunit 10 h).2 rfl⟩
  have hline : fgets 60 (label ++ decimalText n ++ unit ++ 10 :: rest) =
      (label ++ decimalText n ++ unit ++ [10], rest) := by
    refine takeLine_line hend ?_
    simp only [List.length_append]
    omega
  have hskip : fgets 60 (first ++ 10 :: (label ++ decimalText n ++ unit ++ 10 :: rest)) =
      (first ++ [10], label ++ decimalText n ++ unit ++ 10 :: rest) :=
    takeLine_line hfirst (by omega)
  -- behind the number there are the unit, the end of the line and zeros
  have hbehind : ∀ (k : ℕ), ∀ c ∈ unit ++ [10] ++ List.replicate k 0, isDigit c = false := by
    intro k c hc
    simp only [List.mem_append, List.mem_singleton] at hc
    rcases hc with (hc | rfl) | hc
    · exact (hunit c hc).1
    · decide
    · rw [List.eq_of_mem_replicate hc]
      decide
  have hbuffer (k : ℕ) : label ++ decimalText n ++ unit ++ [10] ++ List.replicate k 0 =
      label ++ (decimalText n ++ (unit ++ [10] ++ List.replicate k 0)) := by
    simp only [List.append_assoc]
  rw [getFreeMem, hskip, hline]
  dsimp only
  rw [hbuffer, List.foldlM_append, foldlM_readDigit_of_none fun c hc => (hlabel c hc).1,
    Option.bind_eq_bind, Option.bind_some, List.foldlM_append, foldlM_readDigit_decimalText hn,
    Option.bind_eq_bind, Option.bind_some, foldlM_readDigit_of_none (hbehind _)]

/-- `free_mem` reads the gigabytes that the kernel reports, up to the size of its `int`. -/
theorem measuredGb_eq {first label unit rest : List UInt8} {kb : ℕ} (hfirst : 10 ∉ first)
    (hfirstFits : first.length ≤ 58) (hlabel : Wordy label) (hunit : Wordy unit)
    (hfits : label.length + (decimalText kb).length + unit.length ≤ 58) (hkb : kb < 2 ^ 51) :
    measuredGb (first ++ 10 :: (label ++ decimalText kb ++ unit ++ 10 :: rest)) =
      some ((kb / 2 ^ 20 : ℕ) : ℤ) := by
  have hsmall : kb / 2 ^ 20 < 2 ^ 31 := by omega
  rw [measuredGb, getFreeMem_eq hfirst hfirstFits hlabel hunit hfits (by omega), Option.map_some,
    BitVec.toInt_ofNat']
  exact congrArg some (Int.bmod_eq_of_le (by omega) (by omega))

/-- The bytes of a text in ASCII. -/
def ascii (text : String) : List UInt8 := text.toList.map fun c => UInt8.ofNat c.toNat

theorem measuredGb_of_24_gb :
    measuredGb (ascii "MemTotal:       65811932 kB" ++
      10 :: (ascii "MemFree:        " ++ decimalText 25165824 ++ ascii " kB" ++
        10 :: ascii "Cached:          1048576 kB")) = some 24 :=
  measuredGb_eq (by decide) (by decide) (by decide) (by decide) (by decide) (by decide)

end SystemDev.Server
