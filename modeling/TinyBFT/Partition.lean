import TinyBFT.MetaData

/-!
# The partition tree of a memory size (`Partition.h`, `Partition.cc:16-58`)

With `DYNAMIC_PARTITION_TREE`, `partition::init` chooses the number of levels and the sizes of the
tree from the size of the memory.

| here | there |
| --- | --- |
| `PartTable`     | `PLevels`, `PSize`, `PLevelSize`, `PBlocks`; an entry that is not set is zero |
| `pChildren`     | `PChildren` (`Partition.h:37-38`) |
| `numNodes`      | `num_nodes`: the nodes at each height, from the blocks up |
| `numLevels`     | the `while` loop; `none` is `th_fail` |
| `fill`          | the body of the `for` loop; products wrap like an `int` |
| `init`          | `partition::init`; `none` is a memory size that is not accepted |
| `numMeta`, `blocks` | `num_meta_for_blocks`, `blocks` (`Partition.h:57-70`) |
| `findPartition` | the position of `find_partition` (`checkpoint_record.cc:132-139`) |

`PSize[l]` is the number of all nodes at level `l`, where the rest of the code takes it for the
number of children of a node at level `l - 1`. The two are the same as long as there is one node
above the blocks. The loop looks at the number of levels before it writes the next one, so a fifth
level is written behind the arrays.
-/

namespace TinyBFT

/-- `MAX_PARTITION_LEVELS`. -/
def maxPartitionLevels : Nat := 4

/-- As many children as a `Meta_data` has room for. -/
def pChildren (P : Params) : Nat := (P.maxMessageSize - MetaData.repSize) / MetaData.partSize

structure PartTable where
  levels : Nat
  psize : Nat → Int
  plevelSize : Nat → Int
  pblocks : Nat → Int

namespace PartTable

/-- `num_nodes[k]`. -/
def numNodes (C nb : Nat) : Nat → Nat
  | 0 => nb
  | k + 1 => (numNodes C nb k + C - 1) / C

/-- The number of levels; `fuel` levels may still be added. -/
def numLevels (C nb : Nat) : Nat → Nat → Option Nat
  | 0, n => if 1 < numNodes C nb (n - 1) then none else some n
  | fuel + 1, n => if 1 < numNodes C nb (n - 1) then numLevels C nb fuel (n + 1) else some n

def fill (C nb : Nat) (t : PartTable) (i : Nat) : PartTable :=
  let psize := Function.update t.psize i (toInt (numNodes C nb (t.levels - i - 1)))
  { t with
    psize
    plevelSize := Function.update t.plevelSize i (toInt (t.plevelSize (i - 1) * psize i))
    pblocks :=
      Function.update t.pblocks (t.levels - i - 1) (toInt (psize i * t.pblocks (t.levels - i))) }

/-- `PSize[0]`, `PLevelSize[0]` and `PBlocks[num_levels - 1]` are set. -/
def root (n : Nat) : PartTable :=
  ⟨n, Function.update (fun _ => 0) 0 1, Function.update (fun _ => 0) 0 1,
    Function.update (fun _ => 0) (n - 1) 1⟩

def init (P : Params) (blockSize memSize : Nat) : Option PartTable :=
  let nb := memSize / blockSize
  if memSize % blockSize ≠ 0 ∨ nb < 1 then none
  else
    (numLevels (pChildren P) nb maxPartitionLevels 1).map
      fun n => (List.range' 1 (n - 1)).foldl (fill (pChildren P) nb) (root n)

/-- The loop of `num_meta_for_blocks`. -/
def metaLoop (C : Nat) : Nat → Nat → Nat
  | 0, _ => 0
  | l + 1, nodes => (nodes + C - 1) / C + metaLoop C l ((nodes + C - 1) / C)

variable (P : Params) (t : PartTable) (nb : Nat)

def numMeta : Nat := metaLoop (pChildren P) (t.levels - 1) nb

def blocks (l : Nat) : Int := t.pblocks (l + (maxPartitionLevels - t.levels))

def findPartition (l : Nat) (i : Int) : Int := ((List.range l).map t.psize).sum + i

/-! ## What the tree should be -/

/-- The nodes in use at a level, as `num_meta_for_blocks` counts them. -/
def active (l : Nat) : Nat := numNodes (pChildren P) nb (t.levels - 1 - l)

/-- Node `j` of level `l + 1` is in the interval of node `i`. -/
def Child (l : Nat) (i j : Int) : Prop := i * t.psize (l + 1) ≤ j ∧ j < (i + 1) * t.psize (l + 1)

instance (l : Nat) (i j : Int) : Decidable (t.Child l i j) := inferInstanceAs (Decidable (_ ∧ _))

/-- The children of a node that are in use. -/
def children (l : Nat) (i : Int) : List Nat :=
  (List.range (t.active P nb (l + 1))).filter fun j : Nat => decide (t.Child l i j)

/-- The readings of `PSize` agree: nothing is written behind the arrays; the nodes of a level share
the nodes of the next one; no node has more children than a message has room for; and a record has a
place for each node. -/
structure Geometry : Prop where
  bounds : t.levels ≤ maxPartitionLevels
  parent : ∀ l, l + 1 < t.levels → ∀ j < t.active P nb (l + 1),
    ∃! i, i < t.active P nb l ∧ t.Child l i j
  inhabited : ∀ l, l + 1 < t.levels → ∀ i < t.active P nb l, t.children P nb l i ≠ []
  narrow : ∀ l, l + 1 < t.levels → ∀ i < t.active P nb l,
    (t.children P nb l i).length ≤ pChildren P ∧
      MetaData.repSize + (t.children P nb l i).length * MetaData.partSize ≤ P.maxMessageSize
  position_lt : ∀ l, l + 1 < t.levels → ∀ i < t.active P nb l,
    0 ≤ t.findPartition l i ∧ t.findPartition l i < t.numMeta P nb
  position_inj : ∀ l l', l + 1 < t.levels → l' + 1 < t.levels → ∀ i < t.active P nb l,
    ∀ i' < t.active P nb l',
    t.findPartition l i = t.findPartition l' i' → l = l' ∧ i = i'

/-! ## Levels -/

variable {P} {t} {nb} {C : Nat}

theorem pChildren_ge : 2 ≤ pChildren P := by
  have h := P.viewChange_fits
  have h1 := P.maxOut_pos
  have h2 : 0 ≤ P.maxOut / P.ckptInterval := Nat.zero_le _
  generalize P.maxOut / P.ckptInterval = x at h h2
  unfold pChildren MetaData.repSize MetaData.partSize
  rw [Nat.le_div_iff_mul_le (by decide)]
  omega

theorem pChildren_lt : pChildren P < 2 ^ 15 := by
  have h := P.maxMessageSize_le
  unfold pChildren MetaData.repSize MetaData.partSize
  omega

theorem pChildren_fits {k : Nat} (h : k ≤ pChildren P) :
    MetaData.repSize + k * MetaData.partSize ≤ P.maxMessageSize := by
  have h1 := P.viewChange_fits
  have h2 := P.maxOut_pos
  have h3 : k * MetaData.partSize ≤ P.maxMessageSize - MetaData.repSize :=
    (Nat.le_div_iff_mul_le (by decide)).1 h
  unfold MetaData.repSize MetaData.partSize at *
  omega

/-- Above a level with more than one node there is another one. -/
theorem numLevels_spec {fuel m n : Nat} (h : numLevels C nb fuel m = some n) (hm : 1 ≤ m) :
    m ≤ n ∧ numNodes C nb (n - 1) ≤ 1 ∧ ∀ k, m - 1 ≤ k → k < n - 1 → 1 < numNodes C nb k := by
  induction fuel generalizing m with
  | zero =>
    rw [numLevels] at h
    split at h
    · cases h
    · cases h
      exact ⟨le_rfl, by omega, fun k h1 h2 => by omega⟩
  | succ fuel ih =>
    rw [numLevels] at h
    split at h
    · rename_i hlt
      obtain ⟨h1, h2, h3⟩ := ih h (by omega)
      refine ⟨by omega, h2, fun k hk1 hk2 => ?_⟩
      by_cases hk : k = m - 1
      · exact hk ▸ hlt
      · exact h3 k (by omega) hk2
    · cases h
      exact ⟨le_rfl, by omega, fun k h1 h2 => by omega⟩

theorem ceil_le_iff (hC : 0 < C) {x y : Nat} : (x + C - 1) / C ≤ y ↔ x ≤ y * C := by
  rw [← Nat.lt_succ_iff, Nat.div_lt_iff_lt_mul hC, Nat.succ_mul]
  omega

/-! ## Tables -/

/-- The table after the first rounds of the loop. -/
structure Filled (C nb n k : Nat) (t : PartTable) : Prop where
  levels : t.levels = n
  zero : t.psize 0 = 1
  psize : ∀ i, 1 ≤ i → i ≤ k → t.psize i = toInt (numNodes C nb (n - i - 1))
  pblocks : ∀ l, n ≤ l → t.pblocks l = 0

theorem fill_filled {n : Nat} (hn : 1 ≤ n) (k : Nat) :
    Filled C nb n k ((List.range' 1 k).foldl (fill C nb) (root n)) := by
  induction k with
  | zero =>
    refine ⟨rfl, rfl, fun i h1 h2 => by omega, fun l hl => ?_⟩
    show Function.update (fun _ => (0 : Int)) (n - 1) 1 l = 0
    exact Function.update_of_ne (by omega) _ _
  | succ k ih =>
    rw [List.range'_1_concat, List.foldl_append]
    refine ⟨ih.levels, ?_, fun i h1 h2 => ?_, fun l hl => ?_⟩
    · rw [List.foldl_cons, List.foldl_nil, fill]
      exact (Function.update_of_ne (by omega) _ _).trans ih.zero
    · rw [List.foldl_cons, List.foldl_nil, fill]
      by_cases hi : i = 1 + k
      · subst hi
        rw [ih.levels]
        exact Function.update_self _ _ _
      · exact (Function.update_of_ne hi _ _).trans (ih.psize i h1 (by omega))
    · rw [List.foldl_cons, List.foldl_nil, fill]
      exact (Function.update_of_ne (by rw [ih.levels]; omega) _ _).trans (ih.pblocks l hl)

/-- What `init` leaves in the tables. -/
structure Spec (P : Params) (nb : Nat) (t : PartTable) : Prop where
  nb_pos : 1 ≤ nb
  levels_pos : 1 ≤ t.levels
  top : numNodes (pChildren P) nb (t.levels - 1) ≤ 1
  below : ∀ k, k < t.levels - 1 → 1 < numNodes (pChildren P) nb k
  zero : t.psize 0 = 1
  psize : ∀ i, 1 ≤ i → i < t.levels → t.psize i = toInt (t.active P nb i)
  pblocks : ∀ l, t.levels ≤ l → t.pblocks l = 0

theorem init_spec {blockSize memSize : Nat} (h : init P blockSize memSize = some t) :
    Spec P (memSize / blockSize) t := by
  unfold init at h
  dsimp only at h
  split at h
  · cases h
  · rename_i hsize
    obtain ⟨n, hn, rfl⟩ := Option.map_eq_some_iff.1 h
    obtain ⟨h1, h2, h3⟩ := numLevels_spec hn le_rfl
    have hf := @fill_filled (memSize / blockSize) (pChildren P) n h1 (n - 1)
    refine ⟨by omega, by rw [hf.levels]; exact h1, by rw [hf.levels]; exact h2,
      fun k hk => h3 k (by omega) (by rw [hf.levels] at hk; exact hk),
      hf.zero, fun i hi1 hi2 => ?_, fun l hl => hf.pblocks l (hf.levels ▸ hl)⟩
    rw [hf.levels] at hi2
    rw [hf.psize i hi1 (by omega), active, hf.levels, Nat.sub_right_comm]

/-! ## The readings of `PSize` -/

section Readings

variable (hs : Spec P nb t)
include hs

theorem Spec.active_zero : t.active P nb 0 = 1 := by
  have htop := hs.top
  have hC := pChildren_ge (P := P)
  have hpos : ∀ k, 1 ≤ numNodes (pChildren P) nb k := by
    intro k
    induction k with
    | zero => exact hs.nb_pos
    | succ k ih =>
      rw [numNodes, Nat.le_div_iff_mul_le (by omega)]
      omega
  have h1 := hpos (t.levels - 1)
  unfold active
  rw [Nat.sub_zero]
  omega

/-- Without a level between the root and the blocks there are at most as many blocks as a node may
have children, and conversely. -/
theorem Spec.levels_le : t.levels ≤ 2 ↔ nb ≤ pChildren P := by
  have hC := pChildren_ge (P := P)
  have h1 : numNodes (pChildren P) nb 1 ≤ 1 ↔ nb ≤ pChildren P := by
    rw [numNodes, ceil_le_iff (by omega), one_mul, numNodes]
  constructor
  · intro h
    rcases Nat.lt_or_ge t.levels 2 with h2 | h2
    · have htop := hs.top
      rw [show t.levels - 1 = 0 by omega, numNodes] at htop
      omega
    · have htop := hs.top
      rw [show t.levels - 1 = 1 by omega] at htop
      exact h1.1 htop
  · intro h
    by_contra hlt
    have := hs.below 1 (by omega)
    have := h1.2 h
    omega

/-- With three levels or more, the first node of level 1 has all nodes of level 2 as children, and
these are too many. -/
theorem Spec.wide (h : 3 ≤ t.levels) :
    0 < t.active P nb 1 ∧ pChildren P < (t.children P nb 1 0).length := by
  have hC := pChildren_ge (P := P)
  have hC' := pChildren_lt (P := P)
  obtain ⟨n, hn⟩ : ∃ n, t.levels = n + 3 := ⟨t.levels - 3, by omega⟩
  have h1 : t.active P nb 1 = numNodes (pChildren P) nb (n + 1) := by rw [active, hn]; congr 1
  have h2 : t.active P nb 2 = numNodes (pChildren P) nb n := by rw [active, hn]; congr 1
  have htop : numNodes (pChildren P) nb (n + 2) ≤ 1 := by simpa [hn] using hs.top
  have hbelow := hs.below (n + 1) (by omega)
  have hwide : pChildren P < t.active P nb 2 := by
    rw [h2]
    by_contra hle
    rw [numNodes] at hbelow
    have := (ceil_le_iff (x := numNodes (pChildren P) nb n)
      (y := 1) (by omega : 0 < pChildren P)).2 (by omega)
    omega
  have hsmall : t.active P nb 2 < 2 ^ 31 := by
    rw [numNodes, ceil_le_iff (by omega), one_mul, numNodes, ceil_le_iff (by omega)] at htop
    have h3 : pChildren P * pChildren P ≤ 2 ^ 15 * 2 ^ 15 := Nat.mul_le_mul hC'.le hC'.le
    omega
  have hpsize : t.psize 2 = t.active P nb 2 := by
    rw [hs.psize 2 (by decide) (by omega)]
    exact toInt_eq_self (by omega) (by omega)
  have hall : t.children P nb 1 0 = List.range (t.active P nb 2) := by
    refine List.filter_eq_self.2 fun j hj => decide_eq_true ?_
    have hj : j < t.active P nb 2 := List.mem_range.1 hj
    simp only [Child, hpsize]
    omega
  rw [hall, List.length_range]
  exact ⟨by omega, hwide⟩

theorem Spec.geometry (h : nb ≤ pChildren P) : Geometry P t nb := by
  have hlev := hs.levels_le.2 h
  have hpos := hs.levels_pos
  have hnb := hs.nb_pos
  have hC' := pChildren_lt (P := P)
  -- the only level above the blocks is that of the root
  have hroot : ∀ l, l + 1 < t.levels → l = 0 ∧ t.levels = 2 := fun l hl => by omega
  have hblocks : t.levels = 2 → t.active P nb 1 = nb ∧ t.psize 1 = nb := by
    intro h2
    have hact : t.active P nb 1 = nb := by rw [active, h2]; rfl
    refine ⟨hact, ?_⟩
    rw [hs.psize 1 le_rfl (by omega), hact]
    exact toInt_eq_self (by omega) (by omega)
  have hzero : ∀ i : Nat, i < t.active P nb 0 → i = 0 := fun i hi => by
    rw [hs.active_zero] at hi
    omega
  have hchildren : t.levels = 2 → t.children P nb 0 0 = List.range nb := by
    intro h2
    obtain ⟨h3, h4⟩ := hblocks h2
    rw [children, h3]
    refine List.filter_eq_self.2 fun j hj => decide_eq_true ?_
    have := List.mem_range.1 hj
    simp only [Child, h4]
    omega
  have hmeta : t.levels = 2 → t.numMeta P nb = 1 := by
    intro h2
    have htop := hs.active_zero
    rw [active, h2] at htop
    rw [numMeta, h2]
    exact htop
  refine ⟨hlev.trans (by decide), fun l hl j hj => ?_, fun l hl i hi =>
    ?_, fun l hl i hi => ?_, fun l hl i hi => ?_, fun l l' hl hl' i hi i' hi' _ => ?_⟩
  · obtain ⟨rfl, h2⟩ := hroot l hl
    obtain ⟨h3, h4⟩ := hblocks h2
    rw [h3] at hj
    refine ⟨0, ⟨by rw [hs.active_zero]; decide, ?_⟩, fun i hi => hzero i hi.1⟩
    simp only [Child, h4]
    omega
  · obtain ⟨rfl, h2⟩ := hroot l hl
    rw [hzero i hi, Nat.cast_zero, hchildren h2]
    simpa using Nat.pos_iff_ne_zero.1 hnb
  · obtain ⟨rfl, h2⟩ := hroot l hl
    rw [hzero i hi, Nat.cast_zero, hchildren h2, List.length_range]
    exact ⟨h, pChildren_fits h⟩
  · obtain ⟨rfl, h2⟩ := hroot l hl
    rw [hzero i hi, hmeta h2]
    exact ⟨le_rfl, Int.one_pos⟩
  · obtain ⟨rfl, -⟩ := hroot l hl
    obtain ⟨rfl, -⟩ := hroot l' hl'
    exact ⟨rfl, (hzero i hi).trans (hzero i' hi').symm⟩

end Readings

/-- **The geometry of the dynamic partition tree** is right exactly for memories of at most
`PChildren` blocks. -/
theorem geometry_iff {blockSize memSize : Nat} (h : init P blockSize memSize = some t) :
    Geometry P t (memSize / blockSize) ↔ memSize / blockSize ≤ pChildren P := by
  have hs := init_spec h
  refine ⟨fun hg => ?_, hs.geometry⟩
  rw [← hs.levels_le]
  by_contra hlt
  obtain ⟨h1, h2⟩ := hs.wide (by omega)
  exact absurd (hg.narrow 1 (by omega) 0 h1).1 (by simpa using h2)

/-- One block more than `PChildren`: the first of two nodes has all blocks as children. -/
theorem too_many_children : ∃ t, init Params.default 4096 (453 * 4096) = some t ∧
    t.levels = 3 ∧ pChildren Params.default = 452 ∧
    t.active Params.default 453 1 = 2 ∧ (t.children Params.default 453 1 0).length = 453 := by
  obtain ⟨t, ht, h⟩ :=
    (Option.any_eq_true _ _).1 (show (init Params.default 4096 (453 * 4096)).any (fun t =>
    decide (t.levels = 3 ∧ pChildren Params.default = 452 ∧
      t.active Params.default 453 1 = 2 ∧ (t.children Params.default 453 1 0).length = 453)) =
      true by decide +kernel)
  exact ⟨t, ht, of_decide_eq_true h⟩

theorem geometry_iff_two :
    ∃ t, init Params.default 4096 (2 * 4096) = some t ∧ Geometry Params.default t 2 := by
  obtain ⟨t, ht, -⟩ := (Option.any_eq_true _ _).1
    (show (init Params.default 4096 (2 * 4096)).any (fun _ => true) = true by decide +kernel)
  exact ⟨t, ht, (geometry_iff ht).2 (by decide)⟩

end PartTable

end TinyBFT
