import Mathlib.Data.Multiset.Bind
import Mathlib.Data.Multiset.Dedup
import SystemDev.Library.Closure
import SystemDev.Library.Fuel

/-!
# Transitive closure on Spark

`SparkTC` reads a graph, one edge a line, and joins its edges with the paths known so far until
nothing new is found or the given number of rounds is over. What it needs of Spark is what the
operations on datasets do to their elements; the order of the elements and the partitions they lie
in do not matter.
-/

namespace SystemDev.Panthera

open SystemDev.Library Relation

/-- The operations on datasets that `SparkTC` uses, with what their documentation says. -/
structure Spark where
  RDD : Type → Type
  elements : {α : Type} → RDD α → Multiset α
  map : {α β : Type} → RDD α → (α → β) → RDD β
  distinct : {α : Type} → [DecidableEq α] → RDD α → RDD α
  union : {α : Type} → RDD α → RDD α → RDD α
  join : {κ α β : Type} → [DecidableEq κ] → RDD (κ × α) → RDD (κ × β) → RDD (κ × (α × β))
  count : {α : Type} → RDD α → ℕ
  elements_map : ∀ {α β : Type} (r : RDD α) (f : α → β), elements (map r f) = (elements r).map f
  elements_distinct : ∀ {α : Type} [DecidableEq α] (r : RDD α),
    elements (distinct r) = (elements r).dedup
  elements_union : ∀ {α : Type} (r s : RDD α), elements (union r s) = elements r + elements s
  elements_join : ∀ {κ α β : Type} [DecidableEq κ] (r : RDD (κ × α)) (s : RDD (κ × β)),
    elements (join r s) = (elements r).bind fun p =>
      ((elements s).filter fun q => q.1 = p.1).map fun q => (p.1, (p.2, q.2))
  count_eq : ∀ {α : Type} (r : RDD α), count r = (elements r).card

/-- Datasets as lists. -/
def Spark.ofLists : Spark where
  RDD := List
  elements l := l
  map l f := l.map f
  distinct l := l.dedup
  union l l' := l ++ l'
  join l l' := l.flatMap fun p => (l'.filter fun q => q.1 = p.1).map fun q => (p.1, (p.2, q.2))
  count l := l.length
  elements_map _ _ := rfl
  elements_distinct _ := rfl
  elements_union _ _ := rfl
  elements_join l l' := by simp [Multiset.coe_bind]
  count_eq _ := rfl

namespace SparkTC

/-- `\s`. -/
def isSpace (c : Char) : Bool := c ∈ [' ', '\t', '\n', '\x0b', '\x0c', '\r']

/-- `parts(0)` and `parts(1)` of `s.split("\\s+")`, if there are two parts. A line that starts with
a space has an empty first part. -/
def parts (s : List Char) : Option (List Char × List Char) :=
  match s.splitOnP isSpace with
  | [] => none
  | first :: rest => (rest.find? fun part => part ≠ []).map fun second => (first, second)

/-- A vertex. -/
abbrev Vertex := List Char

section Rounds

variable (S : Spark) (edges : S.RDD (Vertex × Vertex)) (iteration : ℤ)

/-- One round: put an edge in front of every path. -/
def extend (tc : S.RDD (Vertex × Vertex)) : S.RDD (Vertex × Vertex) :=
  S.distinct (S.union tc (S.map (S.join tc edges) fun x => (x.2.2, x.2.1)))

/-- The loop; `none` if the fuel runs out. -/
def loop : ℕ → S.RDD (Vertex × Vertex) → ℕ → ℤ → Option (S.RDD (Vertex × Vertex))
  | 0, _, _, _ => none
  | fuel + 1, tc, oldCount, iterControl =>
    let tc := extend S edges tc
    let nextCount := S.count tc
    if iterControl = iteration ∨ nextCount = oldCount then some tc
    else loop fuel tc nextCount (iterControl + 1)

end Rounds

/-- `main`: the paths it has found in the end, or `none` if a line has no two parts, for which the
first count throws. -/
def main (S : Spark) (input : S.RDD (List Char)) (iteration : ℤ) (fuel : ℕ) :
    Option (S.RDD (Vertex × Vertex)) :=
  if ∀ s ∈ S.elements input, (parts s).isSome then
    let tc := S.distinct (S.map input fun s => (parts s).getD ([], []))
    let edges := S.map tc fun x => (x.2, x.1)
    loop S edges iteration fuel tc (S.count tc) 1
  else none

/-- A line of the input joins the vertices. -/
def Edge (S : Spark) (input : S.RDD (List Char)) (x y : Vertex) : Prop :=
  ∃ s ∈ S.elements input, parts s = some (x, y)

/-! ### The rounds -/

section Rounds

variable {S : Spark} {edges tc : S.RDD (Vertex × Vertex)} {r : Vertex → Vertex → Prop}
  {iteration iterControl : ℤ} {n : ℕ} {x z : Vertex}

theorem mem_extend : (x, z) ∈ S.elements (extend S edges tc) ↔
    (x, z) ∈ S.elements tc ∨ ∃ y, (y, x) ∈ S.elements edges ∧ (y, z) ∈ S.elements tc := by
  rw [extend, S.elements_distinct, Multiset.mem_dedup, S.elements_union, Multiset.mem_add,
    S.elements_map, S.elements_join]
  refine or_congr_right ?_
  simp only [Multiset.mem_map, Multiset.mem_bind, Multiset.mem_filter]
  constructor
  · rintro ⟨_, ⟨⟨y, z'⟩, hpath, ⟨y', x'⟩, ⟨hedge, rfl⟩, rfl⟩, heq⟩
    cases heq
    exact ⟨y', hedge, hpath⟩
  · rintro ⟨y, hedge, hpath⟩
    exact ⟨(y, (z, x)), ⟨(y, z), hpath, (y, x), ⟨hedge, rfl⟩, rfl⟩, rfl⟩

/-- After `n` rounds, the paths of up to `n + 1` edges have been found. -/
structure Found (S : Spark) (r : Vertex → Vertex → Prop) (n : ℕ) (tc : S.RDD (Vertex × Vertex)) :
    Prop where
  nodup : (S.elements tc).Nodup
  mem_iff : ∀ x z, (x, z) ∈ S.elements tc ↔ Within r n x z

theorem Found.extend (h : Found S r n tc)
    (hedges : ∀ x y, (y, x) ∈ S.elements edges ↔ r x y) :
    Found S r (n + 1) (extend S edges tc) where
  nodup := by
    rw [SparkTC.extend, S.elements_distinct]
    exact Multiset.nodup_dedup _
  mem_iff x z := by
    rw [mem_extend, h.mem_iff]
    refine or_congr_right (exists_congr fun y => ?_)
    rw [hedges, h.mem_iff]

theorem Found.le (h : Found S r n tc) {tc' : S.RDD (Vertex × Vertex)} (h' : Found S r (n + 1) tc') :
    S.elements tc ≤ S.elements tc' := by
  rw [Multiset.le_iff_subset h.nodup]
  rintro ⟨x, z⟩ hxz
  exact (h'.mem_iff x z).mpr (Or.inl ((h.mem_iff x z).mp hxz))

/-- A round that leaves the count as it was has added nothing. -/
theorem Found.stable (h : Found S r n tc) {tc' : S.RDD (Vertex × Vertex)}
    (h' : Found S r (n + 1) tc') (hcount : S.count tc' = S.count tc)
    (hxz : Within r (n + 1) x z) : Within r n x z := by
  rw [S.count_eq, S.count_eq] at hcount
  rw [← h.mem_iff, Multiset.eq_of_le_of_card_le (h.le h') hcount.le]
  exact (h'.mem_iff x z).mpr hxz

/-- The count is at most that of the pairs of a source and a target of an edge. -/
theorem Found.card_le (h : Found S r n tc) {E : Multiset (Vertex × Vertex)}
    (hE : ∀ x y, r x y → (x, y) ∈ E) : (S.elements tc).card ≤ E.card * E.card := by
  have hsub : S.elements tc ≤ E.map Prod.fst ×ˢ E.map Prod.snd := by
    rw [Multiset.le_iff_subset h.nodup]
    rintro ⟨x, z⟩ hxz
    have hpath := ((h.mem_iff x z).mp hxz).transGen
    obtain ⟨y, hxy, -⟩ := TransGen.head'_iff.mp hpath
    obtain ⟨y', -, hyz⟩ := TransGen.tail'_iff.mp hpath
    exact Multiset.mem_product.mpr
      ⟨Multiset.mem_map.mpr ⟨_, hE x y hxy, rfl⟩, Multiset.mem_map.mpr ⟨_, hE y' z hyz, rfl⟩⟩
  have hcard := Multiset.card_le_card hsub
  rwa [Multiset.card_product, Multiset.card_map, Multiset.card_map] at hcard

/-- The loop has ended: the rounds are over, or there is no further path. -/
structure Ended (S : Spark) (r : Vertex → Vertex → Prop) (iteration : ℤ)
    (tc : S.RDD (Vertex × Vertex)) : Prop where
  nodup : (S.elements tc).Nodup
  mem_iff_of_pos : 1 ≤ iteration →
    ∀ x z, (x, z) ∈ S.elements tc ↔ Within r iteration.toNat x z
  mem_iff_of_nonpos : iteration ≤ 0 → ∀ x z, (x, z) ∈ S.elements tc ↔ TransGen r x z

theorem Found.ended_of_last (h : Found S r n tc) (hpos : 0 < n) (hlast : (n : ℤ) = iteration) :
    Ended S r iteration tc where
  nodup := h.nodup
  mem_iff_of_pos _ x z := by rw [h.mem_iff, ← hlast, Int.toNat_natCast]
  mem_iff_of_nonpos hle := by omega

theorem Found.ended_of_stable (h : Found S r n tc)
    (hstable : ∀ x z, Within r (n + 1) x z → Within r n x z) (hle : 1 ≤ iteration → n ≤ iteration) :
    Ended S r iteration tc where
  nodup := h.nodup
  mem_iff_of_pos hpos x z := by
    rw [h.mem_iff]
    have hn : n ≤ iteration.toNat := by
      have := hle hpos
      omega
    exact ⟨fun hxz => hxz.mono hn, fun hxz => within_of_stable hstable hxz.transGen⟩
  mem_iff_of_nonpos _ x z := by
    rw [h.mem_iff]
    exact ⟨Within.transGen, within_of_stable hstable⟩

/-- The last round. -/
theorem loop_settles_of_stop (hedges : ∀ x y, (y, x) ∈ S.elements edges ↔ r x y) {k : ℕ}
    (h : Found S r n tc) (hle : 1 ≤ iteration → (n : ℤ) + 1 ≤ iteration)
    (hstop : (n : ℤ) + 1 = iteration ∨ S.count (extend S edges tc) = S.count tc) :
    Settles k (fun fuel => loop S edges iteration fuel tc (S.count tc) (n + 1))
      (Ended S r iteration) := by
  have hnext := h.extend hedges
  refine ⟨extend S edges tc, fun fuel hfuel => ?_, ?_⟩
  · obtain ⟨fuel, rfl⟩ := Nat.exists_eq_succ_of_ne_zero (Nat.ne_zero_of_lt hfuel)
    exact if_pos hstop
  · rcases hstop with hlast | hcount
    · exact hnext.ended_of_last (Nat.succ_pos n) hlast
    · refine hnext.ended_of_stable (fun x z hxz => ?_) hle
      have hstable : ∀ x z, Within r (n + 1) x z → Within r n x z :=
        fun _ _ => h.stable hnext hcount
      exact (within_of_stable hstable hxz.transGen).mono (Nat.le_succ n)

/-- The loop ends, since every round but the last finds a new pair and there are only so many. -/
theorem loop_settles {E : Multiset (Vertex × Vertex)} (hE : ∀ x y, r x y → (x, y) ∈ E)
    (hedges : ∀ x y, (y, x) ∈ S.elements edges ↔ r x y) {k : ℕ} (h : Found S r n tc)
    (hle : 1 ≤ iteration → (n : ℤ) + 1 ≤ iteration)
    (hk : E.card * E.card ≤ k + (S.elements tc).card) :
    Settles k (fun fuel => loop S edges iteration fuel tc (S.count tc) (n + 1))
      (Ended S r iteration) := by
  -- `k` bounds the pairs still to be found
  induction k generalizing n tc with
  | zero =>
    refine loop_settles_of_stop hedges h hle (Or.inr ?_)
    have hnext := h.extend hedges
    rw [S.count_eq, S.count_eq]
    have hcard := Multiset.card_le_card (h.le hnext)
    have hbound := hnext.card_le hE
    omega
  | succ k ih =>
    by_cases hstop : (n : ℤ) + 1 = iteration ∨ S.count (extend S edges tc) = S.count tc
    · exact loop_settles_of_stop hedges h hle hstop
    · have hnext := h.extend hedges
      obtain ⟨hlast, hcount⟩ := not_or.mp hstop
      rw [S.count_eq, S.count_eq] at hcount
      have hcard := Multiset.card_le_card (h.le hnext)
      obtain ⟨tc', hloop, hended⟩ := ih hnext
        (fun hpos => by
          have := hle hpos
          push_cast
          omega)
        (by omega)
      refine ⟨tc', fun fuel hfuel => ?_, hended⟩
      obtain ⟨fuel, rfl⟩ := Nat.exists_eq_succ_of_ne_zero (Nat.ne_zero_of_lt hfuel)
      have hrest := hloop fuel (Nat.lt_of_succ_lt_succ hfuel)
      push_cast at hrest
      exact (if_neg hstop).trans hrest

end Rounds

/-- `main` ends on every input whose lines have two parts. It has found the pairs of vertices with a
path of one to `iteration + 1` edges between them, or with any path if `iteration` is not positive,
and each pair once. -/
theorem main_settles (S : Spark) (input : S.RDD (List Char)) (iteration : ℤ)
    (hparts : ∀ s ∈ S.elements input, (parts s).isSome) :
    Settles ((S.elements input).card * (S.elements input).card)
      (fun fuel => main S input iteration fuel) (Ended S (Edge S input) iteration) := by
  have hmem : ∀ x y, (x, y) ∈ (S.elements input).map (fun s => (parts s).getD ([], [])) ↔
      Edge S input x y := by
    intro x y
    rw [Multiset.mem_map]
    refine exists_congr fun s => and_congr_right fun hs => ?_
    obtain ⟨p, hp⟩ := Option.isSome_iff_exists.mp (hparts s hs)
    rw [hp, Option.getD_some, Option.some_inj]
  have hfound : Found S (Edge S input) 0
      (S.distinct (S.map input fun s => (parts s).getD ([], []))) := by
    refine ⟨?_, fun x z => ?_⟩
    · rw [S.elements_distinct]
      exact Multiset.nodup_dedup _
    · rw [S.elements_distinct, Multiset.mem_dedup, S.elements_map, hmem]
      rfl
  have hedges : ∀ x y, (y, x) ∈ S.elements (S.map (S.distinct (S.map input fun s =>
      (parts s).getD ([], []))) fun x => (x.2, x.1)) ↔ Edge S input x y := by
    intro x y
    rw [S.elements_map, Multiset.mem_map]
    constructor
    · rintro ⟨⟨x', y'⟩, hxy, heq⟩
      cases heq
      exact (hfound.mem_iff x' y').mp hxy
    · exact fun hxy => ⟨(x, y), (hfound.mem_iff x y).mpr hxy, rfl⟩
  refine Settles.congr (loop_settles (fun x y hxy => (hmem x y).mpr hxy) hedges hfound id ?_) ?_
  · rw [Multiset.card_map]
    exact Nat.le_add_right _ _
  · intro fuel _
    exact if_pos hparts

/-- A triangle; the last line has a part too many. -/
def triangle : List (List Char) :=
  [['a', ' ', 'b'], ['b', ' ', ' ', 'c'], ['c', '\t', 'a', ' ', 'x']]

theorem triangle_settles :
    (∀ s ∈ Spark.ofLists.elements triangle, (parts s).isSome) ∧
    Settles 9 (main Spark.ofLists triangle 0)
      (Ended Spark.ofLists (Edge Spark.ofLists triangle) 0) := by
  have hparts : ∀ s ∈ Spark.ofLists.elements triangle, (parts s).isSome := by decide
  exact ⟨hparts, main_settles Spark.ofLists triangle 0 hparts⟩

example : (main Spark.ofLists triangle 0 9).map Spark.ofLists.count = some 9 := by decide

end SparkTC

end SystemDev.Panthera
