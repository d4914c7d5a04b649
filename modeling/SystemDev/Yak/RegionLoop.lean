import SystemDev.Yak.Reshuffle

/-!
# The region loop

Every node created is on one chain, from the first bucket on: the insertion loops put each new node
behind the last one of a bucket and the reshuffle keeps all nodes. The second insertion loop goes
through the buckets of the first one again and finds none of them empty.

## Main results

* `Held.insertBehind` — a new node
* `filled_initTable` — the buckets before the first iteration
* `iteration_settles` — one iteration
* `reshuffle_loses_nothing` — the reshuffle, and all iterations of both programs
-/

namespace SystemDev.Yak

open SystemDev.Library

variable {t : Table} {chain : ℕ → List ℕ} {pos a n n' i k len size : ℕ} {v : ℤ}

/-- Every node created so far is on one chain, once. -/
structure Held (t : Table) (chain : ℕ → List ℕ) : Prop extends Buckets t chain where
  perm : (cells t.nodes.length chain).Perm (List.range t.heap.length)
  nonneg : ∀ a v, valueOf t.heap a = some v → 0 ≤ v

/-! ### A new node -/

/-- A new node behind `last`. -/
def Table.insertBehind (t : Table) (pos : ℕ) (v : ℤ) (last : Option ℕ) : Table :=
  Table.linkBehind { t with heap := t.heap ++ [⟨v, none⟩] } pos t.heap.length last

@[simp] theorem length_nodes_insertBehind {last : Option ℕ} :
    (t.insertBehind pos v last).nodes.length = t.nodes.length :=
  length_nodes_linkBehind

@[simp] theorem length_heap_insertBehind {last : Option ℕ} :
    (t.insertBehind pos v last).heap.length = t.heap.length + 1 := by
  rw [Table.insertBehind, length_heap_linkBehind, List.length_append, List.length_singleton]

namespace Held

variable (h : Held t chain)

include h

theorem length_cells : (cells t.nodes.length chain).length = t.heap.length := by
  rw [h.perm.length_eq, List.length_range]

theorem lt_of_mem (hpos : pos < t.nodes.length) (ha : a ∈ chain pos) : a < t.heap.length :=
  h.toBuckets.lt_length_heap hpos ha

/-- A new node on the heap changes no chain. -/
theorem buckets_new : Buckets { t with heap := t.heap ++ [⟨v, none⟩] } chain := by
  apply h.toBuckets.congr
  intro a ha
  have hlt : a < t.heap.length := List.mem_range.mp (h.perm.mem_iff.mp ha)
  rw [nextOf, List.getElem?_append_left hlt, nextOf]

theorem insert_eq (hpos : pos < t.nodes.length) {fuel : ℕ} (hfuel : t.heap.length < fuel) :
    t.insert fuel pos v = some (t.insertBehind pos v (chain pos).getLast?) := by
  apply h.buckets_new.append_eq hpos
  have hchain : (chain pos).length ≤ (cells t.nodes.length chain).length := length_le_cells hpos
  rw [h.length_cells] at hchain
  omega

theorem nextOf_insertBehind (hpos : pos < t.nodes.length) :
    nextOf (t.insertBehind pos v (chain pos).getLast?).heap t.heap.length = some none := by
  rw [Table.insertBehind, nextOf_linkBehind]
  · rw [nextOf, List.getElem?_append_right Nat.le.refl, Nat.sub_self]
    rfl
  · rintro b hb rfl
    exact Nat.lt_irrefl _ (h.lt_of_mem hpos (List.mem_of_getLast? hb))

/-- The new node is the last one of its bucket. -/
theorem insertBehind (hpos : pos < t.nodes.length) (hv : 0 ≤ v) :
    Held (t.insertBehind pos v (chain pos).getLast?) (snocAt chain pos t.heap.length) where
  toBuckets := by
    apply h.buckets_new.link hpos
    · intro hmem
      exact Nat.lt_irrefl _ (List.mem_range.mp (h.perm.mem_iff.mp hmem))
    · exact fun a _ => rfl
    · exact h.nextOf_insertBehind hpos
  perm := by
    have hperm : (cells t.nodes.length (snocAt chain pos t.heap.length)).Perm
        (t.heap.length :: cells t.nodes.length chain) := cells_snocAt_perm hpos
    rw [length_nodes_insertBehind, length_heap_insertBehind, List.range_succ]
    exact (hperm.trans (h.perm.cons _)).trans (List.perm_append_singleton _ _).symm
  nonneg := by
    intro a w hw
    rw [Table.insertBehind, valueOf_linkBehind, valueOf, List.getElem?_append] at hw
    split at hw
    · exact h.nonneg a w hw
    · rw [List.getElem?_singleton] at hw
      split at hw
      · exact Option.some_inj.mp hw ▸ hv
      · cases hw

end Held

/-! ### Insertion loops -/

/-- The table has `len` buckets and `size` nodes, all held, and the first `n` turns of an insertion
loop find no empty bucket. -/
def Filled (n len size : ℕ) (t : Table) : Prop :=
  ∃ chain, Held t chain ∧ t.nodes.length = len ∧ t.heap.length = size ∧
    ∀ j < n, chain (j * 156 % len) ≠ []

theorem index_turn (hlen : 0 < len) : index ((i : ℤ) * 156) len = some (i * 156 % len) := by
  rw [index_of_nonneg (by omega) hlen]
  rfl

theorem snocAt_ne_nil {q : ℕ} (h : chain q ≠ [] ∨ q = pos) : snocAt chain pos a q ≠ [] := by
  by_cases hq : q = pos
  · subst hq
    rw [snocAt, Function.update_self]
    exact List.append_ne_nil_of_right_ne_nil _ (List.cons_ne_nil a [])
  · rw [snocAt, Function.update_of_ne hq]
    exact h.resolve_right hq

theorem Filled.mono (h : Filled n len size t) (hn : n' ≤ n) : Filled n' len size t := by
  obtain ⟨chain, hheld, hnodes, hheap, hfilled⟩ := h
  exact ⟨chain, hheld, hnodes, hheap, fun j hj => hfilled j (Nat.lt_of_lt_of_le hj hn)⟩

theorem Held.insertTurn_eq (h : Held t chain) (hlen : 0 < t.nodes.length) {fuel : ℕ}
    (hfuel : t.heap.length < fuel) :
    insertTurn fuel t i = some (t.insertBehind (i * 156 % t.nodes.length) i
      (chain (i * 156 % t.nodes.length)).getLast?) := by
  rw [insertTurn, index_turn hlen, Option.bind_some]
  exact h.insert_eq (Nat.mod_lt _ hlen) hfuel

/-- A turn of the first loop. -/
theorem Filled.insertTurn (h : Filled n len size t) (hlen : 0 < len) (hk : size ≤ k)
    (hn : ∀ j < n', j < n ∨ j = i) :
    Settles k (fun fuel => insertTurn fuel t i) (Filled n' len (size + 1)) := by
  obtain ⟨chain, hheld, rfl, rfl, hfilled⟩ := h
  refine ⟨_, fun fuel hfuel => hheld.insertTurn_eq hlen (Nat.lt_of_le_of_lt hk hfuel), ?_⟩
  refine ⟨_, hheld.insertBehind (Nat.mod_lt _ hlen) (by omega), length_nodes_insertBehind,
    length_heap_insertBehind, fun j hj => snocAt_ne_nil ?_⟩
  rcases hn j hj with hj | rfl
  · exact Or.inl (hfilled j hj)
  · exact Or.inr rfl

/-- A turn of the second loop does what the first loop's does. -/
theorem Filled.insertTurnUnchecked_eq (h : Filled n len size t) (hlen : 0 < len) (hi : i < n)
    {fuel : ℕ} : insertTurnUnchecked fuel t i = Yak.insertTurn fuel t i := by
  obtain ⟨chain, hheld, rfl, -, hfilled⟩ := h
  have hpos : i * 156 % t.nodes.length < t.nodes.length := Nat.mod_lt _ hlen
  have hlinked := hheld.linked _ _ (List.getElem?_eq_getElem hpos)
  rw [insertTurnUnchecked, Yak.insertTurn, index_turn hlen, Option.bind_some, Option.bind_some,
    List.getElem?_eq_getElem hpos, Option.bind_some]
  cases hhead : t.nodes[i * 156 % t.nodes.length] with
  | none => exact absurd (hlinked.head_eq_none_iff.mp hhead) (hfilled i hi)
  | some head => rfl

/-- The first insertion loop. -/
theorem firstLoop_settles (h : Filled 0 len size t) (hlen : 0 < len) (hk : size + 10 ≤ k) :
    Settles k (fun fuel => (List.range 10).foldlM (insertTurn fuel) t)
      (Filled 10 len (size + 10)) := by
  apply Settles.foldlM_range (P := fun i => Filled i len (size + i)) h
  intro i hi t ht
  exact ht.insertTurn hlen (by omega) fun j hj => by omega

/-- The second insertion loop, after the first. -/
theorem secondLoop_settles (h : Filled 10 len size t) (hlen : 0 < len) (hk : size + 10 ≤ k) :
    Settles k (fun fuel => (List.range 10).foldlM (insertTurnUnchecked fuel) t)
      (Filled 10 len (size + 10)) := by
  apply Settles.foldlM_range (P := fun i => Filled 10 len (size + i)) h
  intro i hi t ht
  have hturn : Settles k (fun fuel => insertTurn fuel t i) (Filled 10 len (size + i + 1)) :=
    ht.insertTurn hlen (by omega) fun j hj => Or.inl hj
  exact hturn.congr fun fuel _ => ht.insertTurnUnchecked_eq hlen hi

/-! ### Initial buckets -/

/-- The table while bucket `i` is built: `n` nodes so far, the buckets behind it still empty. -/
def Built (i n : ℕ) (t : Table) (chain : ℕ → List ℕ) : Prop :=
  Held t chain ∧ t.nodes.length = 10 ∧ t.heap.length = n ∧ ∀ q, i ≤ q → chain q = []

theorem Built.insertBehind (h : Built (i + 1) n t chain) (hi : i < 10) (hv : 0 ≤ v) :
    Built (i + 1) (n + 1) (t.insertBehind i v (chain i).getLast?) (snocAt chain i n) := by
  obtain ⟨hheld, hnodes, rfl, hempty⟩ := h
  refine ⟨hheld.insertBehind (by omega) hv, ?_, length_heap_insertBehind, fun q hq => ?_⟩
  · rw [length_nodes_insertBehind, hnodes]
  · rw [snocAt, Function.update_of_ne (by omega), hempty q hq]

theorem getLast?_snocAt : (snocAt chain i a i).getLast? = some a := by
  rw [snocAt, Function.update_self, List.getLast?_concat]

/-- The inner loop: `prev` is the last node of the bucket. -/
def Chained (i n : ℕ) (s : Table × ℕ) : Prop :=
  ∃ chain, Built (i + 1) n s.1 chain ∧ (chain i).getLast? = some s.2

theorem Chained.chainTurn {s : Table × ℕ} {j : ℕ} (h : Chained i n s) (hi : i < 10) :
    Chained i (n + 1) (chainTurn s j) := by
  obtain ⟨chain, hbuilt, hlast⟩ := h
  have hvalue : 0 ≤ (j : ℤ) * 25 := by omega
  have hturn := hbuilt.insertBehind hi hvalue
  rw [hlast] at hturn
  refine ⟨_, hturn, ?_⟩
  rw [getLast?_snocAt, ← hbuilt.2.2.1]
  rfl

/-- The head of a bucket. -/
theorem Built.head (h : Built i n t chain) (hi : i < 10) :
    Built (i + 1) (n + 1) (t.insertBehind i i none) (snocAt chain i n) := by
  have hnil : chain i = [] := h.2.2.2 i Nat.le.refl
  have hnext : Built (i + 1) n t chain :=
    ⟨h.1, h.2.1, h.2.2.1, fun q hq => h.2.2.2 q (Nat.le_of_succ_le hq)⟩
  have hhead := hnext.insertBehind hi (Int.natCast_nonneg i)
  rwa [hnil] at hhead

/-- One bucket: its head and thirty more nodes. -/
theorem built_initBucket (hi : i < 10) (h : ∃ chain, Built i (31 * i) t chain) :
    ∃ chain, Built (i + 1) (31 * (i + 1)) (initBucket t i) chain := by
  obtain ⟨chain, h⟩ := h
  have hhead : Chained i (31 * i + 1) (t.insertBehind i i none, t.heap.length) :=
    ⟨_, h.head hi, by rw [getLast?_snocAt, h.2.2.1]⟩
  have hloop : Chained i (31 * i + 1 + 30)
      ((List.range 30).foldl chainTurn (t.insertBehind i i none, t.heap.length)) :=
    foldl_range (P := fun j s => Chained i (31 * i + 1 + j) s) hhead
      fun j _ s hs => hs.chainTurn hi
  obtain ⟨chain, hbuilt, -⟩ := hloop
  exact ⟨chain, hbuilt⟩

theorem filled_initTable : Filled 0 10 310 initTable := by
  have hstart : Built 0 0 ⟨[], List.replicate 10 none⟩ fun _ => [] := by
    refine ⟨⟨buckets_empty, ?_, ?_⟩, List.length_replicate, rfl, fun _ _ => rfl⟩
    · rw [cells_empty]
      exact List.Perm.refl _
    · rintro a v ⟨⟩
  have hloop : ∃ chain, Built 10 310 initTable chain :=
    foldl_range (P := fun i t => ∃ chain, Built i (31 * i) t chain) ⟨_, hstart⟩
      fun i hi t ht => built_initBucket hi ht
  obtain ⟨chain, hheld, hnodes, hheap, -⟩ := hloop
  exact ⟨chain, hheld, hnodes, hheap, fun j hj => absurd hj (Nat.not_lt_zero j)⟩

/-! ### Iterations -/

theorem reshuffle_filled (h : Filled n len size t) (hlen : 0 < len) (hk : size ≤ k) :
    Settles k (fun fuel => reshuffle fuel t) (Filled 0 (2 * len) size) := by
  obtain ⟨chain, hheld, rfl, rfl, -⟩ := h
  have hsettles := reshuffle_reshuffles hheld.toBuckets hlen fun a _ => hheld.nonneg a
  rw [hheld.length_cells] at hsettles
  refine (hsettles.of_le hk).mono fun t' ht' => ?_
  refine ⟨reshuffledChains t chain, ⟨ht'.buckets, ?_, ?_⟩, ht'.length_nodes, ht'.length_heap, ?_⟩
  · rw [ht'.length_heap]
    exact ht'.perm.trans hheld.perm
  · intro a v hv
    exact hheld.nonneg a v (ht'.value a ▸ hv)
  · exact fun j hj => absurd hj (Nat.not_lt_zero j)

/-- The table after `c` iterations. -/
def After (c : ℕ) : Table → Prop := Filled 0 (10 * 2 ^ (c / 2)) (310 + 20 * c)

/-- The reshuffle of every other iteration. -/
theorem grow_settles {c : ℕ} (h : After c t) (hc : 10 * 2 ^ ((c + 1) / 2) < 2 ^ 31)
    (hk : 310 + 20 * c ≤ k) :
    Settles k
      (fun fuel => if (c + 1) % 2 = 0 then
        if 2 * t.nodes.length < 2 ^ 31 then reshuffle fuel t else none
      else some t)
      (Filled 0 (10 * 2 ^ ((c + 1) / 2)) (310 + 20 * c)) := by
  by_cases heven : (c + 1) % 2 = 0
  · have hhalf : (c + 1) / 2 = c / 2 + 1 := by omega
    have hlen : 0 < 10 * 2 ^ (c / 2) := Nat.mul_pos (by omega) (Nat.two_pow_pos _)
    have hnodes : t.nodes.length = 10 * 2 ^ (c / 2) := h.choose_spec.2.1
    have hdouble : 10 * 2 ^ ((c + 1) / 2) = 2 * (10 * 2 ^ (c / 2)) := by
      rw [hhalf, Nat.pow_succ]
      omega
    rw [hdouble] at hc ⊢
    refine (reshuffle_filled h hlen hk).congr fun fuel _ => ?_
    rw [if_pos heven, if_pos (by rwa [hnodes])]
  · have hhalf : (c + 1) / 2 = c / 2 := by omega
    rw [hhalf]
    refine (Settles.pure h).congr fun fuel _ => ?_
    rw [if_neg heven]

/-- One iteration. -/
theorem iteration_settles {c : ℕ} (h : After c t) (hc : 10 * 2 ^ ((c + 1) / 2) < 2 ^ 31)
    (hk : 310 + 20 * (c + 1) ≤ k) :
    Settles k (fun fuel => iteration fuel t (c + 1)) (After (c + 1)) := by
  have hlen : 0 < 10 * 2 ^ ((c + 1) / 2) := Nat.mul_pos (by omega) (Nat.two_pow_pos _)
  refine (grow_settles h hc (by omega)).bind fun t₁ ht₁ => ?_
  refine (firstLoop_settles ht₁ hlen (by omega)).bind fun t₂ ht₂ => ?_
  exact (secondLoop_settles ht₂ hlen (by omega)).mono fun t₃ ht₃ => ht₃.mono (Nat.zero_le 10)

/-- All iterations. -/
theorem bucketLoop_settles {loopNum : ℕ} (hnum : 10 * 2 ^ (loopNum / 2) < 2 ^ 31)
    (hi : i ≤ loopNum) :
    Settles (310 + 20 * loopNum) (fun fuel => bucketLoop fuel i) (After i) := by
  apply Settles.foldlM_range (P := After) filled_initTable
  intro c hc t ht
  apply iteration_settles ht
  · have hmono : 2 ^ ((c + 1) / 2) ≤ 2 ^ (loopNum / 2) :=
      Nat.pow_le_pow_right (by omega) (Nat.div_le_div_right (by omega))
    omega
  · omega

/-- The reshuffle loses nothing: it ends, in an array of twice the length with the same nodes, each
in the bucket of its value, in the order of the old array. So after each iteration, as long as the
length of the array is an `int`, the chains hold every node ever created exactly once. The table
after an iteration is there: the walks end, and the second insertion loop has not met a bucket
without a head. -/
theorem reshuffle_loses_nothing :
    (∀ t chain, Buckets t chain → 1 ≤ t.nodes.length →
      (∀ a ∈ cells t.nodes.length chain, ∀ v, valueOf t.heap a = some v → 0 ≤ v) →
      ∃ t', (∀ fuel, (cells t.nodes.length chain).length < fuel → reshuffle fuel t = some t') ∧
        Reshuffled t chain t') ∧
    (∀ loopNum : ℤ, 10 * 2 ^ (loopNum.toNat / 2) < 2 ^ 31 → ∀ i ≤ loopNum.toNat,
      ∃ t, (∀ fuel, 310 + 20 * loopNum.toNat < fuel →
          Case25.regionLoop fuel i = some t ∧ Case32.run fuel i = some t) ∧
        ∃ chain, Buckets t chain ∧
          (cells t.nodes.length chain).Perm (List.range t.heap.length)) := by
  constructor
  · intro t chain h hnodes hnonneg
    exact reshuffle_reshuffles h hnodes hnonneg
  · intro loopNum hnum i hi
    obtain ⟨t, hrun, chain, hheld, -⟩ := bucketLoop_settles hnum hi
    exact ⟨t, fun fuel hfuel => ⟨hrun fuel hfuel, hrun fuel hfuel⟩, chain, hheld.toBuckets,
      hheld.perm⟩

/-- Two buckets with five nodes. The chain of the first one, with the values 0, 2 and 4, splits. -/
def fiveNodes : Table where
  heap := [⟨0, some 1⟩, ⟨2, some 3⟩, ⟨1, some 4⟩, ⟨4, none⟩, ⟨7, none⟩]
  nodes := [some 0, some 2]

/-- Its chains. -/
def fiveNodesChain : ℕ → List ℕ
  | 0 => [0, 1, 3]
  | _ => [2, 4]

theorem buckets_fiveNodes : Buckets fiveNodes fiveNodesChain where
  linked := by
    rintro (_ | _ | pos) head hhead
    · exact ⟨(Option.some_inj.mp hhead).symm, _, rfl, rfl, _, rfl, linked_singleton rfl⟩
    · exact ⟨(Option.some_inj.mp hhead).symm, _, rfl, linked_singleton rfl⟩
    · cases hhead
  nodup := by decide

/-- The run of `Case25.main`, and a reshuffle of two buckets: the values 0 and 4 stay together, in
their order, and 2 leaves them; 1 and 7 part. -/
theorem main_loses_nothing :
    (∃ t, Case25.regionLoop 511 10 = some t) ∧
      ∃ t', reshuffle 6 fiveNodes = some t' ∧ Reshuffled fiveNodes fiveNodesChain t' ∧
        (List.range 4).map (reshuffledChains fiveNodes fiveNodesChain) = [[0, 3], [2], [1], [4]] ∧
        t'.nodes = [some 0, some 2, some 1, some 4] := by
  constructor
  · obtain ⟨t, hrun, -⟩ := reshuffle_loses_nothing.2 10 (by decide) 10 (by decide)
    exact ⟨t, (hrun 511 (by decide)).1⟩
  · have hnonneg : ∀ a ∈ cells fiveNodes.nodes.length fiveNodesChain,
        ∀ v, valueOf fiveNodes.heap a = some v → 0 ≤ v := by
      decide
    obtain ⟨t', hrun, ht'⟩ := reshuffle_loses_nothing.1 _ _ buckets_fiveNodes (by decide) hnonneg
    have hsix : reshuffle 6 fiveNodes = some t' := hrun 6 (by decide)
    refine ⟨t', hsix, ht', by decide, ?_⟩
    have heval : (reshuffle 6 fiveNodes).map Table.nodes =
        some [some 0, some 2, some 1, some 4] := by decide
    rw [hsix] at heval
    exact Option.some_inj.mp heval

end SystemDev.Yak
