import Mathlib.Tactic.FinCases
import SystemDev.Library.HostWord
import SystemDev.Library.Logarithm

/-!
# Counting resident pages

`pages_inmem_ratio` seeks to the entry of the first page in `/proc/<pid>/pagemap` and reads
eight bytes per page with `getc`. The value it gets at the end of the file, `-1`, is stored
like any other and becomes the byte `0xff`, so that an entry outside the file has both flags
set. On a big-endian host an entry that is cut off has the flags of its first byte.

A loop counter that overflows is `none`.

## Main results

* `readEntry_eq` — the bytes of an entry, padded behind the end of the file
* `pagesInmemRatio_eq` — what the two loops count
* `countsExactly_iff` — the files on which they count the pages of the file
-/

namespace SystemDev.BlockDevice

open SystemDev.Library

/-- `PAGEMAP_ENTRY`. -/
abbrev pagemapEntry : ℕ := 8

/-- `getc` on what is left of a file: the next byte, or `EOF`. -/
def getc : List UInt8 → ℤ × List UInt8
  | [] => (-1, [])
  | b :: rest => (b.toNat, rest)

/-- Where byte `i` of an entry goes in `c_buf`. -/
def idx (e : Endian) (i : Fin pagemapEntry) : Fin pagemapEntry :=
  match e with
  | .big => i
  | .little => i.rev

/-- One turn of the loop that fills `c_buf`. -/
def fillByte (e : Endian) (s : List UInt8 × (Fin pagemapEntry → UInt8)) (i : Fin pagemapEntry) :
    List UInt8 × (Fin pagemapEntry → UInt8) :=
  let r := getc s.1
  -- `EOF` is not tested for and stored as a byte
  (r.2, Function.update s.2 (idx e i) (UInt8.ofInt r.1))

/-- The loop that fills `c_buf`, which held `cBuf` before. -/
def fillEntry (e : Endian) (stream : List UInt8) (cBuf : Fin pagemapEntry → UInt8) :
    List UInt8 × (Fin pagemapEntry → UInt8) :=
  (List.finRange pagemapEntry).foldl (fillByte e) (stream, cBuf)

/-- The loop that puts `read_val` together. -/
def readVal (cBuf : Fin pagemapEntry → UInt8) : BitVec 64 :=
  (List.finRange pagemapEntry).foldl (fun v i => shiftIn v (cBuf i)) 0

/-- `GET_BIT`. -/
def getBit (x : BitVec 64) (y : ℕ) : BitVec 64 := (x &&& (1#64 <<< y)) >>> y

/-- `PG_PRESENT`. -/
def pgPresent (x : BitVec 64) : BitVec 64 := getBit x 63

/-- `PG_SWAPPED`. -/
def pgSwapped (x : BitVec 64) : BitVec 64 := getBit x 62

/-- The file and the two counters inside `pages_inmem_ratio`. -/
structure Counting where
  stream : List UInt8
  numPagesIn : ℕ
  numPagesSwapped : ℕ

/-- One turn of the loop over the pages. `cBuf` is what the buffer holds when turn `j` begins. -/
def countPage (e : Endian) (cBuf : ℕ → Fin pagemapEntry → UInt8) (s : Counting) (j : ℕ) :
    Counting :=
  let r := fillEntry e s.stream (cBuf j)
  let readVal := readVal r.2
  { stream := r.1
    numPagesIn := if pgPresent readVal ≠ 0 then s.numPagesIn + 1 else s.numPagesIn
    numPagesSwapped :=
      if pgSwapped readVal ≠ 0 then s.numPagesSwapped + 1 else s.numPagesSwapped }

/-- `num_pages`. -/
def numPages (addrStart addrEnd : BitVec 64) : ℕ := ((addrEnd - addrStart) / 0x1000#64).toNat

/-- `base_offset`: `PAGE_SIZE` is 4096. -/
def baseOffset (addrStart : BitVec 64) : ℕ := (addrStart / 4096#64 * 8#64).toNat

/-- The counting part of `pages_inmem_ratio` on an opened pagemap: `num_pages_in` and
`num_pages_swapped`. The counter of the loop is an `int`. -/
def pagesInmemRatio (e : Endian) (pagemap : List UInt8) (cBuf : ℕ → Fin pagemapEntry → UInt8)
    (addrStart addrEnd : BitVec 64) : Option (ℕ × ℕ) :=
  if numPages addrStart addrEnd < 2 ^ 31 then
    let s := (List.range (numPages addrStart addrEnd)).foldl (countPage e cBuf)
      { stream := pagemap.drop (baseOffset addrStart), numPagesIn := 0, numPagesSwapped := 0 }
    some (s.numPagesIn, s.numPagesSwapped)
  else none

/-! ### One entry -/

/-- The byte at an offset as `getc` stores it. -/
def byteAt (stream : List UInt8) (i : ℕ) : UInt8 := stream[i]?.getD 0xff

theorem ofInt_getc (stream : List UInt8) : UInt8.ofInt (getc stream).1 = byteAt stream 0 := by
  cases stream with
  | nil => decide
  | cons b rest =>
    refine UInt8.toNat_inj.mp ?_
    have hb : b.toNat < 256 := b.toNat_lt
    simp only [getc, byteAt, List.getElem?_cons_zero, Option.getD_some, UInt8.ofInt]
    rw [UInt8.toNat_ofNat']
    omega

theorem getc_rest (stream : List UInt8) : (getc stream).2 = stream.drop 1 := by
  cases stream <;> rfl

theorem byteAt_drop (stream : List UInt8) (p i : ℕ) :
    byteAt (stream.drop p) i = byteAt stream (p + i) := by
  rw [byteAt, List.getElem?_drop]
  rfl

theorem fillByte_eq (e : Endian) (stream : List UInt8) (cBuf : Fin pagemapEntry → UInt8)
    (i : Fin pagemapEntry) :
    fillByte e (stream, cBuf) i =
      (stream.drop 1, Function.update cBuf (idx e i) (byteAt stream 0)) := by
  rw [fillByte, getc_rest, ofInt_getc]

/-- The loop takes eight bytes and leaves nothing of what the buffer held. -/
theorem fillEntry_eq (e : Endian) (stream : List UInt8) (cBuf : Fin pagemapEntry → UInt8) :
    fillEntry e stream cBuf = (stream.drop 8, fun k => byteAt stream (idx e k)) := by
  have hindices : List.finRange pagemapEntry = [0, 1, 2, 3, 4, 5, 6, 7] := by decide
  rw [fillEntry, hindices]
  simp only [List.foldl_cons, List.foldl_nil, fillByte_eq, List.drop_drop, byteAt_drop]
  refine Prod.ext rfl ?_
  funext k
  cases e <;> fin_cases k <;> rfl

/-- The bytes of an entry, with `0xff` behind the end of the file. -/
def paddedEntry (stream : List UInt8) : List UInt8 := (List.range 8).map (byteAt stream)

/-- What is put together from the buffer is the padded entry in the order of the host. -/
theorem readEntry_eq (e : Endian) (stream : List UInt8) (cBuf : Fin pagemapEntry → UInt8) :
    (readVal (fillEntry e stream cBuf).2).toNat = hostWord e (paddedEntry stream) := by
  have hfold : ∀ buf : Fin pagemapEntry → UInt8,
      readVal buf = ((List.finRange pagemapEntry).map buf).foldl shiftIn 0 :=
    fun buf => List.foldl_map.symm
  rw [fillEntry_eq, hfold, toNat_foldl_shiftIn _ _ (by simp [pagemapEntry])]
  cases e with
  | little =>
    simp [hostWord, paddedEntry]
    rfl
  | big =>
    simp [hostWord, paddedEntry]
    rfl

/-- The offset of the most significant byte of an entry. -/
def topOffset : Endian → ℕ
  | .little => 7
  | .big => 0

/-- The two flags of an entry are bits of its most significant byte. -/
theorem testBit_paddedEntry (e : Endian) (stream : List UInt8) (k : ℕ) :
    (hostWord e (paddedEntry stream)).testBit (56 + k) =
      (byteAt stream (topOffset e)).toNat.testBit k := by
  cases e with
  | little =>
    exact testBit_ofDigits_reverse (byteAt stream 7)
      ([6, 5, 4, 3, 2, 1, 0].map (byteAt stream)) k
  | big =>
    exact testBit_ofDigits_reverse (byteAt stream 0)
      ([1, 2, 3, 4, 5, 6, 7].map (byteAt stream)) k

/-- An entry that lies in the file is not padded. -/
theorem paddedEntry_of_length {stream : List UInt8} (h : 8 ≤ stream.length) :
    paddedEntry stream = stream.take 8 := by
  refine List.ext_getElem (by simp [paddedEntry, h]) fun i hi hi' => ?_
  have hlt : i < stream.length := by
    simp only [paddedEntry, List.length_map, List.length_range] at hi
    omega
  simp [paddedEntry, byteAt, hlt]

theorem getBit_ne_zero_iff (x : BitVec 64) {y : ℕ} (hy : y < 64) :
    getBit x y ≠ 0 ↔ x.toNat.testBit y = true := by
  rw [getBit, ← BitVec.twoPow_eq, BitVec.and_twoPow, ← BitVec.getLsbD]
  cases hbit : x.getLsbD y with
  | false => simp
  | true =>
    have hone : (BitVec.twoPow 64 y >>> y).toNat = 1 := by
      rw [BitVec.toNat_ushiftRight, BitVec.toNat_twoPow_eq_ite, if_pos hy,
        Nat.shiftRight_eq_div_pow, Nat.div_self (Nat.two_pow_pos y)]
    simp only [if_true, iff_true]
    exact fun h => absurd (hone.symm.trans (congrArg BitVec.toNat h)) (by decide)

/-! ### The loop over the pages -/

/-- Bit `k` of the most significant byte of the entry that page `j` of the range is read from. -/
def Flag (e : Endian) (stream : List UInt8) (k j : ℕ) : Prop :=
  (byteAt stream (8 * j + topOffset e)).toNat.testBit k = true

instance (e : Endian) (stream : List UInt8) (k j : ℕ) : Decidable (Flag e stream k j) :=
  inferInstanceAs (Decidable (_ = true))

theorem countPage_eq (e : Endian) (cBuf : ℕ → Fin pagemapEntry → UInt8) (s : Counting) (j : ℕ) :
    countPage e cBuf s j =
      { stream := s.stream.drop 8
        numPagesIn := if Flag e s.stream 7 0 then s.numPagesIn + 1 else s.numPagesIn
        numPagesSwapped :=
          if Flag e s.stream 6 0 then s.numPagesSwapped + 1 else s.numPagesSwapped } := by
  have hflag : ∀ k, k < 8 → (getBit (readVal (fillEntry e s.stream (cBuf j)).2) (56 + k) ≠ 0 ↔
      Flag e s.stream k 0) := by
    intro k hk
    rw [getBit_ne_zero_iff _ (by omega), readEntry_eq, testBit_paddedEntry, Flag, Nat.mul_zero,
      Nat.zero_add]
  have hin : pgPresent (readVal (fillEntry e s.stream (cBuf j)).2) ≠ 0 ↔ Flag e s.stream 7 0 :=
    hflag 7 (by decide)
  have hswapped : pgSwapped (readVal (fillEntry e s.stream (cBuf j)).2) ≠ 0 ↔
      Flag e s.stream 6 0 := hflag 6 (by decide)
  have hrest : (fillEntry e s.stream (cBuf j)).1 = s.stream.drop 8 := by rw [fillEntry_eq]
  simp only [countPage, hin, hswapped, hrest]

/-- The number of the first `n` pages of the range with a flag, as the loop sees them. -/
def flagged (e : Endian) (stream : List UInt8) (k n : ℕ) : ℕ :=
  ((Finset.range n).filter (Flag e stream k)).card

theorem flagged_succ (e : Endian) (stream : List UInt8) (k n : ℕ) :
    flagged e stream k (n + 1) =
      if Flag e stream k n then flagged e stream k n + 1 else flagged e stream k n := by
  rw [flagged, Finset.range_add_one, Finset.filter_insert]
  split_ifs with h
  · rw [Finset.card_insert_of_notMem (by simp)]
    rfl
  · rfl

/-- The loop counts the flags it sees. -/
theorem foldl_countPage (e : Endian) (cBuf : ℕ → Fin pagemapEntry → UInt8) (stream : List UInt8)
    (n : ℕ) :
    (List.range n).foldl (countPage e cBuf)
        { stream := stream, numPagesIn := 0, numPagesSwapped := 0 } =
      { stream := stream.drop (8 * n)
        numPagesIn := flagged e stream 7 n
        numPagesSwapped := flagged e stream 6 n } := by
  induction n with
  | zero => rfl
  | succ n ih =>
    have hflag : ∀ k, Flag e (stream.drop (8 * n)) k 0 ↔ Flag e stream k n := by
      intro k
      rw [Flag, Flag, byteAt_drop, Nat.mul_zero, Nat.zero_add]
    rw [List.range_succ, List.foldl_append, ih, List.foldl_cons, List.foldl_nil, countPage_eq]
    simp only [hflag, flagged_succ, List.drop_drop]
    rfl

theorem pagesInmemRatio_eq (e : Endian) (pagemap : List UInt8)
    (cBuf : ℕ → Fin pagemapEntry → UInt8) {addrStart addrEnd : BitVec 64}
    (hpages : numPages addrStart addrEnd < 2 ^ 31) :
    pagesInmemRatio e pagemap cBuf addrStart addrEnd =
      some (flagged e (pagemap.drop (baseOffset addrStart)) 7 (numPages addrStart addrEnd),
        flagged e (pagemap.drop (baseOffset addrStart)) 6 (numPages addrStart addrEnd)) := by
  rw [pagesInmemRatio, if_pos hpages, foldl_countPage]

/-! ### Against the entries of the file -/

/-- The entry of page `v` lies in the file, and bit `k` of it is set. -/
def EntryHas (e : Endian) (pagemap : List UInt8) (k v : ℕ) : Prop :=
  8 * v + 8 ≤ pagemap.length ∧ (hostWord e ((pagemap.drop (8 * v)).take 8)).testBit k = true

instance (e : Endian) (pagemap : List UInt8) (k v : ℕ) : Decidable (EntryHas e pagemap k v) :=
  inferInstanceAs (Decidable (_ ∧ _))

/-- The number of pages between two addresses with bit `k` set in their entry. -/
def pagesWith (e : Endian) (pagemap : List UInt8) (addrStart addrEnd : BitVec 64) (k : ℕ) : ℕ :=
  ((Finset.Ico (addrStart.toNat / 4096) (addrEnd.toNat / 4096)).filter
    (EntryHas e pagemap k)).card

/-- Both counters are what the file says. -/
def CountsExactly (e : Endian) (pagemap : List UInt8) (cBuf : ℕ → Fin pagemapEntry → UInt8)
    (addrStart addrEnd : BitVec 64) : Prop :=
  pagesInmemRatio e pagemap cBuf addrStart addrEnd =
    some (pagesWith e pagemap addrStart addrEnd 63, pagesWith e pagemap addrStart addrEnd 62)

/-- The range is empty, or its entries lie in the file, or all but the last do and the first
byte of that one, read on a big-endian host, is in the file with both flags clear. -/
def EndsInside (e : Endian) (pagemap : List UInt8) (base n : ℕ) : Prop :=
  n = 0 ∨ base + 8 * n ≤ pagemap.length ∨
    e = .big ∧ ∃ b, pagemap[base + 8 * (n - 1)]? = some b ∧ b.toNat < 0x40

theorem baseOffset_eq (addrStart : BitVec 64) :
    baseOffset addrStart = 8 * (addrStart.toNat / 4096) := by
  have hlt := addrStart.isLt
  have hpage : (4096#64).toNat = 4096 := rfl
  have hentry : (8#64).toNat = 8 := rfl
  rw [baseOffset, BitVec.toNat_mul, BitVec.toNat_udiv, hpage, hentry]
  omega

theorem numPages_eq {addrStart addrEnd : BitVec 64} (hstart : 4096 ∣ addrStart.toNat)
    (hend : 4096 ∣ addrEnd.toNat) (hle : addrStart ≤ addrEnd) :
    numPages addrStart addrEnd = addrEnd.toNat / 4096 - addrStart.toNat / 4096 := by
  have hpage : (0x1000#64).toNat = 4096 := rfl
  rw [numPages, BitVec.toNat_udiv, BitVec.toNat_sub_of_le hle, hpage]
  omega

section

variable {e : Endian} {pagemap : List UInt8}

/-- The entry of a page of the range, as the loop sees it. -/
theorem entryHas_iff (v j k : ℕ) :
    EntryHas e pagemap (56 + k) (v + j) ↔
      8 * v + 8 * j + 8 ≤ pagemap.length ∧ Flag e (pagemap.drop (8 * v)) k j := by
  rw [EntryHas, Nat.mul_add]
  refine and_congr_right fun hin => ?_
  have hlong : 8 ≤ (pagemap.drop (8 * v + 8 * j)).length := by
    rw [List.length_drop]
    omega
  rw [← paddedEntry_of_length hlong, testBit_paddedEntry, Flag, byteAt_drop, byteAt_drop,
    Nat.add_assoc]

/-- A filter with a further condition keeps its size exactly if the condition is met. -/
theorem card_filter_eq_iff {n : ℕ} {p q : ℕ → Prop} [DecidablePred p] [DecidablePred q] :
    ((Finset.range n).filter p).card = ((Finset.range n).filter fun j => q j ∧ p j).card ↔
      ∀ j < n, p j → q j := by
  have hsub : ((Finset.range n).filter fun j => q j ∧ p j) ⊆ (Finset.range n).filter p :=
    Finset.monotone_filter_right _ fun _ _ h => h.2
  constructor
  · intro hcard j hj hp
    have heq := Finset.eq_of_subset_of_card_le hsub hcard.le
    have hmem : j ∈ (Finset.range n).filter p :=
      Finset.mem_filter.mpr ⟨Finset.mem_range.mpr hj, hp⟩
    rw [← heq] at hmem
    exact (Finset.mem_filter.mp hmem).2.1
  · intro h
    congr 1
    refine Finset.filter_congr fun j hj => ?_
    exact (and_iff_right_of_imp (h j (Finset.mem_range.mp hj))).symm

/-- A counter is exact if no flag is seen at an entry outside the file. -/
theorem flagged_eq_pagesWith_iff {addrStart addrEnd : BitVec 64} (k : ℕ) :
    flagged e (pagemap.drop (8 * (addrStart.toNat / 4096))) k
          (addrEnd.toNat / 4096 - addrStart.toNat / 4096) =
        pagesWith e pagemap addrStart addrEnd (56 + k) ↔
      ∀ j < addrEnd.toNat / 4096 - addrStart.toNat / 4096,
        Flag e (pagemap.drop (8 * (addrStart.toNat / 4096))) k j →
          8 * (addrStart.toNat / 4096) + 8 * j + 8 ≤ pagemap.length := by
  have hshift : pagesWith e pagemap addrStart addrEnd (56 + k) =
      ((Finset.range (addrEnd.toNat / 4096 - addrStart.toNat / 4096)).filter fun j =>
        8 * (addrStart.toNat / 4096) + 8 * j + 8 ≤ pagemap.length ∧
          Flag e (pagemap.drop (8 * (addrStart.toNat / 4096))) k j).card := by
    rw [pagesWith, Finset.card_filter, Finset.card_filter, Finset.sum_Ico_eq_sum_range]
    simp only [entryHas_iff]
  rw [hshift, flagged, card_filter_eq_iff]

/-- Both flags of a byte are clear. -/
theorem flags_clear_iff (b : UInt8) :
    b.toNat.testBit 7 = false ∧ b.toNat.testBit 6 = false ↔ b.toNat < 0x40 := by
  have hb : b.toNat < 256 := b.toNat_lt
  simp only [Nat.testBit_eq_decide_div_mod_eq, decide_eq_false_iff_not]
  omega

theorem byteAt_of_length_le {i : ℕ} (h : pagemap.length ≤ i) : byteAt pagemap i = 0xff := by
  rw [byteAt, List.getElem?_eq_none h]
  rfl

/-- A flag at a page of the range is a bit of one byte of the file. -/
theorem flag_drop_iff (base k j : ℕ) :
    Flag e (pagemap.drop base) k j ↔
      (byteAt pagemap (base + 8 * j + topOffset e)).toNat.testBit k = true := by
  rw [Flag, byteAt_drop, Nat.add_assoc]

/-- One of the two flags is seen at a page of the range. -/
def Seen (e : Endian) (pagemap : List UInt8) (base j : ℕ) : Prop :=
  Flag e (pagemap.drop base) 7 j ∨ Flag e (pagemap.drop base) 6 j

theorem not_seen_iff (base j : ℕ) :
    ¬ Seen e pagemap base j ↔ (byteAt pagemap (base + 8 * j + topOffset e)).toNat < 0x40 := by
  rw [Seen, flag_drop_iff, flag_drop_iff, not_or, Bool.not_eq_true, Bool.not_eq_true,
    flags_clear_iff]

/-- Without a page seen outside the file the range ends inside it: the last page gives it away
otherwise. -/
theorem endsInside_of_seen {base n : ℕ}
    (hinside : ∀ j < n, Seen e pagemap base j → base + 8 * j + 8 ≤ pagemap.length) :
    EndsInside e pagemap base n := by
  by_contra hout
  rw [EndsInside, not_or, not_or] at hout
  obtain ⟨hpos, hshort, hcut⟩ := hout
  have hlast := (not_seen_iff ..).mp (mt (hinside (n - 1) (by omega)) (by omega))
  have hread : byteAt pagemap (base + 8 * (n - 1) + topOffset e) ≠ 0xff := by
    intro h
    rw [h] at hlast
    exact absurd hlast (by decide)
  cases e with
  | little =>
    refine hread (byteAt_of_length_le ?_)
    simp only [topOffset]
    omega
  | big =>
    refine hcut ⟨rfl, ?_⟩
    cases hbyte : pagemap[base + 8 * (n - 1)]? with
    | none => exact absurd (byteAt_of_length_le (List.getElem?_eq_none_iff.mp hbyte)) hread
    | some b => exact ⟨b, rfl, by simpa [byteAt, topOffset, hbyte] using hlast⟩

/-- In a range that ends inside the file no page is seen outside it. -/
theorem EndsInside.inside {base n j : ℕ} (h : EndsInside e pagemap base n) (hj : j < n)
    (hseen : Seen e pagemap base j) : base + 8 * j + 8 ≤ pagemap.length := by
  rcases h with rfl | hall | ⟨rfl, b, hb, hclear⟩
  · exact absurd hj (Nat.not_lt_zero j)
  · omega
  · have hin : base + 8 * (n - 1) < pagemap.length := (List.getElem?_eq_some_iff.mp hb).1
    by_cases hlast : j = n - 1
    · subst hlast
      refine absurd hseen ((not_seen_iff ..).mpr ?_)
      simpa [byteAt, topOffset, hb] using hclear
    · omega

end

/-- On every pagemap the pages between two page-aligned addresses are counted exactly if and
only if the entries of the range lie in the file, up to a last one cut off behind clear flags
on a big-endian host. -/
theorem countsExactly_iff (e : Endian) (pagemap : List UInt8)
    (cBuf : ℕ → Fin pagemapEntry → UInt8) {addrStart addrEnd : BitVec 64}
    (hstart : 4096 ∣ addrStart.toNat) (hend : 4096 ∣ addrEnd.toNat) (hle : addrStart ≤ addrEnd)
    (hpages : (addrEnd.toNat - addrStart.toNat) / 4096 < 2 ^ 31) :
    CountsExactly e pagemap cBuf addrStart addrEnd ↔
      EndsInside e pagemap (8 * (addrStart.toNat / 4096))
        (addrEnd.toNat / 4096 - addrStart.toNat / 4096) := by
  have hnum := numPages_eq hstart hend hle
  rw [CountsExactly, pagesInmemRatio_eq e pagemap cBuf (by omega), hnum, baseOffset_eq,
    Option.some_inj, Prod.mk.injEq, flagged_eq_pagesWith_iff 7, flagged_eq_pagesWith_iff 6]
  constructor
  · rintro ⟨hin, hswapped⟩
    apply endsInside_of_seen
    rintro j hj (h7 | h6)
    · exact hin j hj h7
    · exact hswapped j hj h6
  · intro h
    exact ⟨fun j hj h7 => h.inside hj (.inl h7), fun j hj h6 => h.inside hj (.inr h6)⟩

/-- A pagemap of two pages, the first present and the second swapped. -/
def twoPages : List UInt8 := [1, 0, 0, 0, 0, 0, 0, 0x80, 2, 0, 0, 0, 0, 0, 0, 0x40]

theorem countsExactly_twoPages : CountsExactly .little twoPages (fun _ _ => 0) 0 0x2000 :=
  (countsExactly_iff .little twoPages _ (by decide) (by decide) (by decide) (by decide)).mpr
    (.inr (.inl (by decide)))

/-- A page behind the end of an empty pagemap is counted as present and as swapped. -/
theorem not_countsExactly_empty : ¬ CountsExactly .little [] (fun _ _ => 0) 0 0x1000 := by
  have hcounted : pagesInmemRatio .little [] (fun _ _ => 0) 0 0x1000 = some (1, 1) := by
    decide +kernel
  have hthere : pagesWith .little [] 0 0x1000 63 = 0 := by decide
  intro h
  rw [CountsExactly, hcounted, hthere] at h
  simp at h

end SystemDev.BlockDevice
