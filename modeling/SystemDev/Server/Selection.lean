import SystemDev.Server.Accounting
import SystemDev.Server.Evict

/-!
# Picking chunks to evict

The number of chunks that `evict_mem` picks is held against the counter `mapped_size`, the
candidates are the entries of `conn_map`. A pick looks for a candidate around the whole table
and does not stop without one, so the two have to agree.

## Main results

* `selectConns_ends_iff` — the picks end if there are as many mapped chunks
* `selection_ends_iff` — the states from which the selection of `evict_mem` ends
-/

namespace SystemDev.Server

open SystemDev.Library SystemDev.Rdma

variable {cfg : ServerConfig} {s : RdmaSession cfg}

/-- Only mapped chunks can be picked. -/
def Selection.PicksMapped (connMap : Chunk cfg → ℤ) (g : Selection cfg) : Prop :=
  ∀ i, g.selectable i = true → connMap i ≠ -1

theorem picksMapped_initialSelection (r : RdmaRemoteMem cfg) :
    (initialSelection r).PicksMapped r.connMap := by
  intro i hi hnone
  simp [Selection.selectable, initialSelection, hnone] at hi

/-- Picking a mapped chunk marks its owner's slot and takes the chunk away. -/
theorem exists_selectChunk {connMap : Chunk cfg → ℤ}
    (howners : ∀ i, connMap i ≠ -1 → ∃ k : Slot cfg, connMap i = (k : ℕ)) (g : Selection cfg)
    (i : Chunk cfg) (hg : g.PicksMapped connMap) (hi : g.selectable i = true) :
    ∃ g', selectChunk connMap g i = some g' ∧ g'.PicksMapped connMap ∧
      g'.selectable = Function.update g.selectable i false := by
  obtain ⟨k, hk⟩ := howners i (hg i hi)
  have hselectable : Selection.selectable
      { randomChunkSelect := Function.update g.randomChunkSelect i .selected
        sendList := Function.update g.sendList k .contacted } =
        Function.update g.selectable i false := by
    funext m
    by_cases hm : m = i
    · subst hm
      simp [Selection.selectable]
    · simp [Selection.selectable, hm]
  refine ⟨_, Option.map_eq_some_iff.mpr ⟨k, index?_eq_some_iff.mpr hk, rfl⟩, ?_, hselectable⟩
  intro m hm
  rw [hselectable] at hm
  by_cases hmi : m = i
  · subst hmi
    exact hg m hi
  · rw [Function.update_of_ne hmi] at hm
    exact hg m hm

theorem freeCount_initialSelection (r : RdmaRemoteMem cfg) :
    freeCount (initialSelection r).selectable = mappedCount r := by
  rw [freeCount, mappedCount]
  congr 1
  ext i
  by_cases hi : r.connMap i = -1
  · simp [Selection.selectable, initialSelection, hi]
  · simp [Selection.selectable, initialSelection, hi]

/-- With chunks mapped to slots only, the selection ends if it contacts everybody or if as many
chunks are mapped as it picks. -/
theorem selectConns_ends_iff
    (howners : ∀ i, s.rdmaRemote.connMap i ≠ -1 →
      ∃ k : Slot cfg, s.rdmaRemote.connMap i = (k : ℕ)) (rand : ℕ → ℕ) (evictG : ℤ) :
    (∃ fuel out, selectConns fuel rand s evictG = some out) ↔
      s.rdmaRemote.mappedSize < evictG + extraChunkNum ∨
        evictG + extraChunkNum ≤ mappedCount s.rdmaRemote := by
  by_cases hall : s.rdmaRemote.mappedSize < evictG + extraChunkNum
  · simp only [selectConns, hall, true_or, iff_true]
    exact ⟨0, _, rfl⟩
  · have hpicks := exists_takeEach_iff (exists_selectChunk howners)
      (picksMapped_initialSelection s.rdmaRemote)
      ((List.range (evictG + extraChunkNum).toNat).map rand)
    rw [freeCount_initialSelection, List.length_map, List.length_range, Int.toNat_le] at hpicks
    rw [or_iff_right hall, ← hpicks]
    simp only [selectConns, if_neg hall, Option.map_eq_some_iff]
    constructor
    · rintro ⟨fuel, out, g, hg, -⟩
      exact ⟨fuel, g, hg⟩
    · rintro ⟨fuel, g, hg⟩
      exact ⟨fuel, _, g, hg, rfl⟩

/-- With `e` chunks still to evict behind the unmapped ones: none, or so many that all clients
are contacted, or `e + 2` are mapped. -/
def EnoughMapped (s : RdmaSession cfg) (stopG : ℤ) : Prop :=
  let e := stopG - (freeChunks s.rdmaRemote).length
  e ≤ 0 ∨ s.rdmaRemote.mappedSize < e + extraChunkNum ∨
    e + extraChunkNum ≤ mappedCount s.rdmaRemote

instance (stopG : ℤ) : Decidable (EnoughMapped s stopG) :=
  inferInstanceAs (Decidable (_ ∨ _ ∨ _))

/-- The selection behind the freeing of unmapped chunks. -/
theorem evictSelect_ends_iff
    (howners : ∀ i, s.rdmaRemote.connMap i ≠ -1 →
      ∃ k : Slot cfg, s.rdmaRemote.connMap i = (k : ℕ)) {rand : ℕ → ℕ} {stopG : ℤ}
    (hpos : 1 ≤ stopG) :
    (∃ fuel out, evictSelect fuel rand s stopG = some out) ↔ EnoughMapped s stopG := by
  have hfreed := length_granted s.rdmaRemote stopG
  rw [if_pos (by omega)] at hfreed
  simp only [evictSelect, evictUnmapped_eq, EnoughMapped]
  by_cases hdone : ((granted s.rdmaRemote stopG).length : ℤ) = stopG
  · simp only [if_pos hdone]
    exact iff_of_true ⟨0, _, rfl⟩ (.inl (by omega))
  · have hall : (granted s.rdmaRemote stopG).length = (freeChunks s.rdmaRemote).length := by
      omega
    have hleft : ¬ stopG - ((freeChunks s.rdmaRemote).length : ℤ) ≤ 0 := by omega
    rw [or_iff_right hleft, ← hall]
    simp only [if_neg hdone, Option.map_eq_some_iff]
    -- freeing unmapped chunks changes neither `conn_map` nor `mapped_size`
    refine Iff.trans ?_ (selectConns_ends_iff (s := { s with rdmaRemote :=
      { s.rdmaRemote with sizeGb := _, mallocMap := _ } }) howners rand _)
    constructor
    · rintro ⟨fuel, -, p, hp, -⟩
      exact ⟨fuel, p, hp⟩
    · rintro ⟨fuel, p, hp⟩
      exact ⟨fuel, _, p, hp, rfl⟩

/-- In every state of every run, for every amount to evict and all values of `rand()`: the
selection ends, with every picked chunk mapped to a slot of `send_list`, if and only if enough
chunks are mapped. -/
theorem selection_ends_iff (freeMemG : ℤ) (memalign : Chunk cfg → BitVec 64)
    (ops : List (Op cfg)) (s : RdmaSession cfg) (stopG : ℤ) (rand : ℕ → ℕ)
    (hrun : run step (rdmaSessionInit freeMemG memalign) ops = some s) (hpos : 1 ≤ stopG) :
    (∃ fuel out, evictSelect fuel rand s stopG = some out) ↔ EnoughMapped s stopG :=
  evictSelect_ends_iff (reached_of_run hrun).owners hpos

/-- A client asks for `n` chunks. -/
def oneRequest (n : ℤ) : List (Op defaultConfig) :=
  [.buildConnection 7 blankConnection, .requestChunks 7 n fun _ => 5]

/-- Four chunks, all mapped and all picked for an eviction of two. -/
theorem selection_ends_iff_fourMapped :
    ∃ s, run step (rdmaSessionInit 12 fun _ => 0x1000) (oneRequest 4) = some s ∧
      ∃ fuel out, evictSelect fuel (fun n => 5 * n) s 2 = some out := by
  have hrun : (run step (rdmaSessionInit 12 fun _ => 0x1000) (oneRequest 4)).any fun s =>
      EnoughMapped s 2 := by decide +kernel
  obtain ⟨s, hs, hstate⟩ := (Option.any_eq_true _ _).mp hrun
  exact ⟨s, hs, (selection_ends_iff 12 _ _ s 2 _ hs (by decide)).mpr (of_decide_eq_true hstate)⟩

/-- A client asks for three chunks and is granted the only one there is. `mapped_size` is three
then, and an eviction of one chunk looks for a second mapped one for ever. -/
theorem selection_does_not_end :
    ∃ s, run step (rdmaSessionInit 9 fun _ => 0x1000) (oneRequest 3) = some s ∧
      1 ≤ s.rdmaRemote.sizeGb ∧ ∀ fuel rand, evictSelect fuel rand s 1 = none := by
  have hrun : (run step (rdmaSessionInit 9 fun _ => 0x1000) (oneRequest 3)).any fun s =>
      1 ≤ s.rdmaRemote.sizeGb ∧ (freeChunks s.rdmaRemote).length = 0 ∧
        s.rdmaRemote.mappedSize = 3 ∧ mappedCount s.rdmaRemote = 1 := by decide +kernel
  obtain ⟨s, hs, hstate⟩ := (Option.any_eq_true _ _).mp hrun
  obtain ⟨hsize, hfree, hmapped, hcount⟩ := of_decide_eq_true hstate
  refine ⟨s, hs, hsize, fun fuel rand => ?_⟩
  rw [Option.eq_none_iff_forall_ne_some]
  intro out hout
  have henough := (evictSelect_ends_iff (reached_of_run hs).owners (by decide)).mp ⟨fuel, out, hout⟩
  rw [EnoughMapped, hfree, hmapped, hcount, extraChunkNum] at henough
  omega

end SystemDev.Server
