import TinyBFT.CheckpointRecord
import Mathlib.Algebra.BigOperators.Group.Finset.Basic

/-!
# The partition tree (`Partition.h`, `dsum.{h,cc}`, `State.cc:586-735`)

Blocks are the leaves of a tree. A node has a digest, over its index, the checkpoint that it was
last modified at and its data: the block, or the sum of the digests of its children modulo a large
prime. A checkpoint brings the digests of the modified blocks and of the nodes above them up to
date.

| here | there |
| --- | --- |
| `TreeCfg.levels`, `psize`, `levelSize` | `PLevels`, `PSize`, `PLevelSize` (`Partition.h:22-30`, `Partition.cc:17-57`) |
| `TreeCfg.hash`     | `Digest::set_state_block` (`Digest.cc:42-55`), SHA-256 of an index, a stamp and bytes |
| `Digest.value`     | a digest as `mbedtls_mpi_read_binary` reads it: the byte at the lowest address first |
| `addMod`, `subMod` | `DSum::add`, `DSum::sub` (`dsum.cc:19-52`) |
| `sumBytes`         | `mbedtls_mpi_write_binary` of a sum into 64 bytes |
| `Tree`             | `ptree` (`lm` and `d`) and `stree` |
| `computeFull`      | the loops of `compute_full_digest` (`State.cc:628-646`), on new sums |
| `refresh`          | what `update_ptree` does with one modified node (`State.cc:694-709`) |
| `updateTree`       | `update_ptree` (`State.cc:663-735`), with the copies that it appends to the last record |

In the build with a tree computed from the memory size, `PSize` of a level is the number of its
nodes, so that all of them are children of node 0 of the level above. Every result is for arbitrary
sizes.
-/

namespace TinyBFT

/-- The value of a digest as a big number. -/
def Digest.value (d : Digest) : Nat :=
  (List.range 32).foldl (fun acc j => acc * 256 + d.toNat / 256 ^ j % 256) 0

/-- `PLevelSize`: the nodes that there is room for at a level. -/
def levelSize (psize : Nat → Nat) : Nat → Nat
  | 0 => 1
  | l + 1 => levelSize psize l * psize (l + 1)

structure TreeCfg where
  levels : Nat
  psize : Nat → Nat
  nb : Nat
  blockSize : Nat
  modulus : Nat
  hash : Block → Nat → Int → Digest
  levels_pos : 0 < levels
  psize_pos : ∀ l, 0 < psize l
  nb_pos : 0 < nb
  nb_le : nb ≤ levelSize psize (levels - 1)
  blockSize_pos : 0 < blockSize
  /-- The modulus has 384 bits (`State.cc:466-468`). -/
  modulus_ge : 2 ^ 256 ≤ modulus

/-- `lm` and `d` of a `Part`. -/
structure PartNode where
  lm : Int
  d : Digest
deriving DecidableEq, Repr

theorem PartNode.eq_of {p q : PartNode} (h1 : p.lm = q.lm) (h2 : p.d = q.d) : p = q := by
  cases p
  cases q
  simp_all

structure Tree where
  pt : Nat → Nat → PartNode
  sums : Nat → Nat → Nat

def addMod (m s d : Nat) : Nat := if m ≤ s + d then s + d - m else s + d

def subMod (m s d : Nat) : Nat := if s < d then s + m - d else s - d

def sumBytes (s : Nat) : Block := (List.range 64).map fun k => UInt8.ofNat (s / 256 ^ (63 - k))

namespace TreeCfg

variable (c : TreeCfg)

/-- `np` of `compute_full_digest` after `k` levels: the nodes over the blocks. -/
def countUp : Nat → Nat
  | 0 => c.nb
  | k + 1 => (countUp k + c.psize (c.levels - 1 - k) - 1) / c.psize (c.levels - 1 - k)

/-- The nodes of a level that are over a block. -/
def count (l : Nat) : Nat := c.countUp (c.levels - 1 - l)

end TreeCfg

namespace Tree

variable (c : TreeCfg)

def setNode (T : Tree) (l i : Nat) (p : PartNode) : Tree :=
  { T with pt := Function.update T.pt l (Function.update (T.pt l) i p) }

def setSum (T : Tree) (l i : Nat) (s : Nat) : Tree :=
  { T with sums := Function.update T.sums l (Function.update (T.sums l) i s) }

/-- What `digest(d, l, i)` hashes. -/
def data (T : Tree) (mem : Nat → Block) (l i : Nat) : Block :=
  if l + 1 = c.levels then mem i else sumBytes (T.sums l i)

/-- The node gets a stamp and its digest; the sum of its parent follows. -/
def refresh (T : Tree) (mem : Nat → Block) (n : Int) (l i : Nat) : Tree :=
  let d := c.hash (T.data c mem l i) i n
  let sum := T.sums (l - 1) (i / c.psize l)
  (T.setNode l i ⟨n, d⟩).setSum (l - 1) (i / c.psize l)
    (addMod c.modulus (subMod c.modulus sum (T.pt l i).d.value) d.value)

/-- The root has no parent. -/
def refreshRoot (T : Tree) (mem : Nat → Block) (n : Int) : Tree :=
  T.setNode 0 0 ⟨n, c.hash (T.data c mem 0 0) 0 n⟩

/-! ## The full computation -/

/-- New sums and digests, with the given stamps. -/
def blank (lm : Nat → Nat → Int) : Tree := ⟨fun l i => ⟨lm l i, 0⟩, fun _ _ => 0⟩

/-- The digest of one node, added to the sum of its parent. -/
def fill (mem : Nat → Block) (l : Nat) (T : Tree) (i : Nat) : Tree :=
  let d := c.hash (T.data c mem l i) i (T.pt l i).lm
  (T.setNode l i { T.pt l i with d := d }).setSum (l - 1) (i / c.psize l)
    (addMod c.modulus (T.sums (l - 1) (i / c.psize l)) d.value)

def fillLevels (mem : Nat → Block) : Nat → Nat → Tree → Tree
  | 0, _, T => T.setNode 0 0 { T.pt 0 0 with d := c.hash (T.data c mem 0 0) 0 (T.pt 0 0).lm }
  | l + 1, np, T =>
    fillLevels mem l ((np + c.psize (l + 1) - 1) / c.psize (l + 1))
      ((List.range np).foldl (fill c mem (l + 1)) T)

/-- `compute_full_digest`, with the current stamps. -/
def computeFull (mem : Nat → Block) (lm : Nat → Nat → Int) : Tree :=
  fillLevels c mem (c.levels - 1) c.nb (blank lm)

/-! ## The incremental computation -/

/-- A copy of an inner node, for a record. -/
def copy (T : Tree) (l i : Nat) : Part := ⟨(T.pt l i).lm, (T.pt l i).d, []⟩

/-- One modified node: a copy goes to the record, unless it is a block (whose copy was made when it
was written to). -/
def updateNode (mem : Nat → Block) (n : Int) (l i : Nat) (s : Tree × CheckpointRecord) :
    Option (Tree × CheckpointRecord) :=
  (if l + 1 < c.levels then s.2.append (l, i) (s.1.copy l i) else some s.2).map
    fun cr => (s.1.refresh c mem n l i, cr)

def updateNodes (mem : Nat → Block) (n : Int) (l : Nat) :
    List Nat → Tree × CheckpointRecord → Option (Tree × CheckpointRecord)
  | [], s => some s
  | i :: is, s => do updateNodes mem n l is (← updateNode c mem n l i s)

/-- The bits of a level that are set, in order. -/
def setBits (l : Nat) (mods : Nat → Bool) : List Nat :=
  (List.range (if l + 1 = c.levels then c.nb else levelSize c.psize l)).filter mods

/-- The parents of modified nodes. -/
def parents (l : Nat) (is : List Nat) : Nat → Bool := fun p => is.any fun i => i / c.psize l == p

def updateLevels (mem : Nat → Block) (n : Int) :
    Nat → (Nat → Bool) → Tree × CheckpointRecord → Option (Tree × CheckpointRecord)
  | 0, mods, s =>
    if mods 0 then do
      let cr ← s.2.append (0, 0) (s.1.copy 0 0)
      some (s.1.refreshRoot c mem n, cr)
    else some s
  | l + 1, mods, s => do
    let s ← updateNodes c mem n (l + 1) (setBits c (l + 1) mods) s
    updateLevels mem n l (parents c (l + 1) (setBits c (l + 1) mods)) s

/-- `update_ptree`: the blocks in `cowb` were modified. -/
def updateTree (mem : Nat → Block) (n : Int) (cowb : Nat → Bool) (s : Tree × CheckpointRecord) :
    Option (Tree × CheckpointRecord) :=
  updateLevels c mem n (c.levels - 1) cowb s

/-! ## Sums of digests -/

theorem foldl_lt (x : Nat) (is : List Nat) {a m : Nat} (h : a < 256 ^ m) :
    is.foldl (fun acc j => acc * 256 + x / 256 ^ j % 256) a < 256 ^ (m + is.length) := by
  induction is generalizing a m with
  | nil => simpa using h
  | cons j is ih =>
    have hlt : a * 256 + x / 256 ^ j % 256 < 256 ^ (m + 1) := by
      have := Nat.mod_lt (x / 256 ^ j) (show 256 > 0 by decide)
      rw [pow_succ]
      omega
    have := ih hlt
    rw [List.length_cons, show m + (is.length + 1) = m + 1 + is.length by omega]
    exact this

theorem value_lt (d : Digest) : d.value < 2 ^ 256 := by
  have := foldl_lt d.toNat (List.range 32) (a := 0) (m := 0) (by decide)
  rw [List.length_range] at this
  exact this

@[simp] theorem value_zero : Digest.value 0#256 = 0 := by decide

theorem value_lt_modulus (d : Digest) : d.value < c.modulus :=
  Nat.lt_of_lt_of_le (value_lt d) c.modulus_ge

/-- A sum of two reduced numbers, reduced. -/
theorem add_mod_reduced {m d q : Nat} (hd : d < m) (hq : q < m) :
    (d + q) % m = if m ≤ d + q then d + q - m else d + q := by
  split
  · rw [Nat.mod_eq_sub_mod (by omega), Nat.mod_eq_of_lt (by omega)]
  · exact Nat.mod_eq_of_lt (by omega)

theorem subMod_mod {m d r : Nat} (hd : d < m) : subMod m ((d + r) % m) d = r % m := by
  have hr : r % m < m := Nat.mod_lt r (by omega)
  rw [← Nat.add_mod_mod, add_mod_reduced hd hr, subMod]
  split <;> split <;> omega

theorem addMod_mod {m d r : Nat} (hd : d < m) : addMod m (r % m) d = (d + r) % m := by
  have hr : r % m < m := Nat.mod_lt r (by omega)
  rw [← Nat.add_mod_mod, add_mod_reduced hd hr, addMod]
  split <;> split <;> omega

/-- The digests of the children of node `p` of level `l`, added up. -/
def childSum (T : Tree) (l p : Nat) : Nat :=
  ∑ j ∈ Finset.range (c.count (l + 1)),
    if j / c.psize (l + 1) = p then (T.pt (l + 1) j).d.value else 0

/-- Every node has the digest of its data and stamp, but those of `D`; every sum is that of the
children. -/
structure Settled (D : Nat → Nat → Prop) (mem : Nat → Block) (T : Tree) : Prop where
  sums : ∀ l, l + 1 < c.levels → ∀ p, T.sums l p = childSum c T l p % c.modulus
  digests : ∀ l, l < c.levels → ∀ i, i < c.count l → ¬D l i →
    (T.pt l i).d = c.hash (T.data c mem l i) i (T.pt l i).lm

variable {c} {D D' : Nat → Nat → Prop} {mem : Nat → Block} {T T' : Tree} {n : Int} {l i : Nat}

theorem Settled.mono (h : Settled c D mem T)
    (hD : ∀ l < c.levels, ∀ i < c.count l, D l i → D' l i) : Settled c D' mem T :=
  ⟨h.sums, fun l hl i hi hnot => h.digests l hl i hi fun hd => hnot (hD l hl i hi hd)⟩

@[simp] theorem pt_setSum (T : Tree) (l i s : Nat) : (T.setSum l i s).pt = T.pt := rfl

@[simp] theorem sums_setNode (T : Tree) (l i : Nat) (p : PartNode) :
    (T.setNode l i p).sums = T.sums := rfl

theorem pt_setNode (T : Tree) (l i : Nat) (p : PartNode) (l' j : Nat) :
    (T.setNode l i p).pt l' j = if l' = l ∧ j = i then p else T.pt l' j := by
  by_cases hl : l' = l
  · subst hl
    by_cases hj : j = i
    · simp [setNode, hj]
    · simp [setNode, hj]
  · simp [setNode, hl]

theorem sums_setSum (T : Tree) (l i s : Nat) (l' j : Nat) :
    (T.setSum l i s).sums l' j = if l' = l ∧ j = i then s else T.sums l' j := by
  by_cases hl : l' = l
  · subst hl
    by_cases hj : j = i
    · simp [setSum, hj]
    · simp [setSum, hj]
  · simp [setSum, hl]

theorem pt_refresh (l' j : Nat) : (T.refresh c mem n l i).pt l' j =
    if l' = l ∧ j = i then ⟨n, c.hash (T.data c mem l i) i n⟩ else T.pt l' j := by
  simp only [refresh, pt_setSum, pt_setNode]

theorem sums_refresh (l' j : Nat) : (T.refresh c mem n l i).sums l' j =
    if l' = l - 1 ∧ j = i / c.psize l then
      addMod c.modulus (subMod c.modulus (T.sums (l - 1) (i / c.psize l)) (T.pt l i).d.value)
        (c.hash (T.data c mem l i) i n).value
    else T.sums l' j := by
  simp only [refresh, sums_setSum, sums_setNode]

/-- The data of a node changes only if it is the parent of the node that is refreshed. -/
theorem data_refresh (hl : 0 < l) {l' j : Nat} (h : ¬(l' + 1 = l ∧ j = i / c.psize l)) :
    (T.refresh c mem n l i).data c mem l' j = T.data c mem l' j := by
  unfold data
  split
  · rfl
  · rw [sums_refresh, if_neg (by omega)]

theorem childSum_congr {l p : Nat} (h : ∀ j, (T'.pt (l + 1) j) = T.pt (l + 1) j) :
    childSum c T' l p = childSum c T l p := by
  unfold childSum
  simp only [h]

/-- The sum of the parent stays that of its children: the old digest goes, the new one comes. -/
theorem refresh_sums
    (h : ∀ l, l + 1 < c.levels → ∀ p, T.sums l p = childSum c T l p % c.modulus) (hl : 0 < l)
    (hi : i < c.count l) {l' : Nat} (hl' : l' + 1 < c.levels) (p : Nat) :
    (T.refresh c mem n l i).sums l' p = childSum c (T.refresh c mem n l i) l' p % c.modulus := by
  by_cases hlev : l' + 1 = l
  · subst hlev
    have herase : ∀ U : Tree, (∀ j, j ≠ i → U.pt (l' + 1) j = T.pt (l' + 1) j) →
        childSum c U l' p = (if i / c.psize (l' + 1) = p then (U.pt (l' + 1) i).d.value else 0) +
          ∑ j ∈ (Finset.range (c.count (l' + 1))).erase i,
            if j / c.psize (l' + 1) = p then (T.pt (l' + 1) j).d.value else 0 := by
      intro U hU
      rw [childSum, ← Finset.add_sum_erase _ _ (Finset.mem_range.2 hi)]
      have hrest : ∀ j ∈ (Finset.range (c.count (l' + 1))).erase i,
          (if j / c.psize (l' + 1) = p then (U.pt (l' + 1) j).d.value else 0) =
            if j / c.psize (l' + 1) = p then (T.pt (l' + 1) j).d.value else 0 := fun j hj => by
        rw [hU j (Finset.ne_of_mem_erase hj)]
      rw [Finset.sum_congr rfl hrest]
    have hold := herase T fun _ _ => rfl
    have hnew :=
      herase (T.refresh c mem n (l' + 1) i) fun j hj => by rw [pt_refresh, if_neg (by omega)]
    rw [sums_refresh, Nat.add_sub_cancel, hnew]
    by_cases hp : p = i / c.psize (l' + 1)
    · subst hp
      rw [if_pos ⟨rfl, rfl⟩, if_pos rfl, h l' hl', hold,
        if_pos rfl, subMod_mod (value_lt_modulus c _),
        addMod_mod (value_lt_modulus c _), pt_refresh, if_pos ⟨rfl, rfl⟩]
    · rw [if_neg (fun hh => hp hh.2), if_neg (fun hh => hp hh.symm),
        h l' hl', hold, if_neg (fun hh => hp hh.symm)]
  · rw [sums_refresh, if_neg (by omega), h l' hl', childSum_congr fun j => ?_]
    rw [pt_refresh, if_neg (by omega)]

/-- **One node.** Refreshing it settles it, and unsettles at most its parent. -/
theorem settled_refresh (h : Settled c D mem T) (hl : 0 < l) (hlt : l < c.levels)
    (hi : i < c.count l) :
    Settled c (fun l' j => (D l' j ∧ ¬(l' = l ∧ j = i)) ∨ (l' + 1 = l ∧ j = i / c.psize l))
      mem (T.refresh c mem n l i) := by
  refine ⟨fun l' hl' p => refresh_sums h.sums hl hi hl' p, fun l' hl' j hj hnot => ?_⟩
  have hpar : ¬(l' + 1 = l ∧ j = i / c.psize l) := fun hp => hnot (.inr hp)
  rw [data_refresh hl hpar, pt_refresh]
  by_cases hself : l' = l ∧ j = i
  · obtain ⟨rfl, rfl⟩ := hself
    simp
  · rw [if_neg hself]
    exact h.digests l' hl' j hj fun hd => hnot (.inl ⟨hd, hself⟩)

/-- The nodes of one level, in any order. -/
theorem settled_level (f : Tree → Nat → Tree)
    (hf : ∀ (T : Tree) (i : Nat), ∃ n, f T i = T.refresh c mem n l i) (hl : 0 < l)
    (hlt : l < c.levels) (is : List Nat) (his : ∀ i ∈ is, i < c.count l) (h : Settled c D mem T) :
    Settled c (fun l' j => (D l' j ∧ ¬(l' = l ∧ j ∈ is)) ∨
        (l' + 1 = l ∧ ∃ i ∈ is, i / c.psize l = j)) mem (is.foldl f T) := by
  induction is generalizing T D with
  | nil => exact h.mono fun l' _ j _ hd => .inl ⟨hd, by simp⟩
  | cons i is ih =>
    obtain ⟨n, hn⟩ := hf T i
    have hstep := ih (fun j hj => his j (by simp [hj]))
      (hn ▸ settled_refresh (n := n) h hl hlt (his i (by simp)))
    refine hstep.mono fun l' _ j _ hd => ?_
    rcases hd with ⟨⟨hd, hne⟩ | ⟨hl', hj⟩, hnot⟩ | ⟨hl', k, hk, hkj⟩
    · exact .inl ⟨hd, fun hh => by
        rcases List.mem_cons.1 hh.2 with rfl | hmem
        · exact hne ⟨hh.1, rfl⟩
        · exact hnot ⟨hh.1, hmem⟩⟩
    · exact .inr ⟨hl', i, by simp, hj.symm⟩
    · exact .inr ⟨hl', k, by simp [hk], hkj⟩

theorem settled_root (h : Settled c D mem T) :
    Settled c (fun l j => D l j ∧ ¬(l = 0 ∧ j = 0)) mem (T.refreshRoot c mem n) := by
  have hdata : ∀ l j, (T.refreshRoot c mem n).data c mem l j = T.data c mem l j := fun _ _ => rfl
  refine ⟨fun l hl p => ?_, fun l hl j hj hnot => ?_⟩
  · rw [show (T.refreshRoot c mem n).sums = T.sums from rfl,
      h.sums l hl p, childSum_congr fun j => ?_]
    rw [refreshRoot, pt_setNode, if_neg (by omega)]
  · rw [hdata, refreshRoot, pt_setNode]
    by_cases hself : l = 0 ∧ j = 0
    · obtain ⟨rfl, rfl⟩ := hself
      simp
    · rw [if_neg hself]
      exact h.digests l hl j hj fun hd => hnot ⟨hd, hself⟩

/-! ## The nodes over the blocks -/

theorem count_last : c.count (c.levels - 1) = c.nb := by
  unfold TreeCfg.count
  rw [Nat.sub_self]
  rfl

theorem count_succ (h : l + 1 < c.levels) :
    c.count l = (c.count (l + 1) + c.psize (l + 1) - 1) / c.psize (l + 1) := by
  unfold TreeCfg.count
  rw [show c.levels - 1 - l = c.levels - 1 - (l + 1) + 1 by omega]
  simp only [TreeCfg.countUp]
  rw [show c.levels - 1 - (c.levels - 1 - (l + 1)) = l + 1 by omega]

theorem parent_lt (h : l + 1 < c.levels) (hi : i < c.count (l + 1)) :
    i / c.psize (l + 1) < c.count l := by
  have hpos := c.psize_pos (l + 1)
  rw [count_succ h]
  have : i / c.psize (l + 1) + 1 = (i + c.psize (l + 1)) / c.psize (l + 1) :=
    (Nat.add_div_right i hpos).symm
  have : (i + c.psize (l + 1)) / c.psize (l + 1) ≤ (c.count (l + 1) + c.psize (l + 1) - 1) /
    c.psize (l + 1) :=
    Nat.div_le_div_right (by omega)
  omega

theorem count_le (hl : l < c.levels) : c.count l ≤ levelSize c.psize l := by
  obtain ⟨k, hk⟩ : ∃ k, l + k = c.levels - 1 := ⟨c.levels - 1 - l, by omega⟩
  induction k generalizing l with
  | zero =>
    rw [show l = c.levels - 1 by omega, count_last]
    exact c.nb_le
  | succ k ih =>
    have hle := ih (l := l + 1) (by omega) (by omega)
    have hpos := c.psize_pos (l + 1)
    rw [count_succ (by omega), Nat.div_le_iff_le_mul_add_pred hpos]
    have hmul : levelSize c.psize (l + 1) = c.psize (l + 1) * levelSize c.psize l :=
      Nat.mul_comm _ _
    omega

theorem count_pos (hl : l < c.levels) : 0 < c.count l := by
  obtain ⟨k, hk⟩ : ∃ k, l + k = c.levels - 1 := ⟨c.levels - 1 - l, by omega⟩
  induction k generalizing l with
  | zero =>
    rw [show l = c.levels - 1 by omega, count_last]
    exact c.nb_pos
  | succ k ih =>
    exact Nat.zero_lt_of_lt (parent_lt (by omega) (ih (l := l + 1) (by omega) (by omega)))

theorem count_root : c.count 0 = 1 := by
  have h1 := count_le (c := c) (l := 0) c.levels_pos
  have h2 := count_pos (c := c) (l := 0) c.levels_pos
  have h3 : levelSize c.psize 0 = 1 := rfl
  omega

theorem mem_setBits {mods : Nat → Bool} (hl : l < c.levels) (hi : i < c.count l)
    (hm : mods i = true) : i ∈ setBits c l mods := by
  refine List.mem_filter.2 ⟨List.mem_range.2 ?_, hm⟩
  split
  · rename_i hlast
    rwa [show l = c.levels - 1 by omega, count_last] at hi
  · exact Nat.lt_of_lt_of_le hi (count_le hl)

theorem mods_of_mem {mods : Nat → Bool} (h : i ∈ setBits c l mods) : mods i = true :=
  (List.mem_filter.1 h).2

/-! ## The incremental computation settles the tree -/

theorem updateNodes_tree {is : List Nat} {s s' : Tree × CheckpointRecord}
    (h : updateNodes c mem n l is s = some s') :
    s'.1 = is.foldl (fun T i => T.refresh c mem n l i) s.1 := by
  induction is generalizing s with
  | nil => cases h; rfl
  | cons i is ih =>
    simp only [updateNodes, updateNode, Option.bind_eq_bind,
      Option.bind_eq_some_iff, Option.map_eq_some_iff] at h
    obtain ⟨_, ⟨cr, -, rfl⟩, hrest⟩ := h
    exact ih hrest

theorem updateLevels_settled {mods : Nat → Bool} {s s' : Tree × CheckpointRecord}
    (hl : l < c.levels) (hmods : ∀ i, mods i = true → i < c.count l)
    (h : Settled c (fun l' j => l' = l ∧ mods j = true) mem s.1)
    (hr : updateLevels c mem n l mods s = some s') : Settled c (fun _ _ => False) mem s'.1 := by
  induction l generalizing mods s with
  | zero =>
    rw [updateLevels] at hr
    split at hr
    · rename_i hm
      simp only [Option.bind_eq_bind, Option.bind_eq_some_iff, Option.some.injEq] at hr
      obtain ⟨cr, -, rfl⟩ := hr
      refine (settled_root h).mono fun l' _ j _ hd => hd.2 ⟨hd.1.1, ?_⟩
      have := hmods j hd.1.2
      rw [count_root] at this
      omega
    · rename_i hm
      cases hr
      refine h.mono fun l' _ j _ hd => hm ?_
      have := hmods j hd.2
      rw [count_root] at this
      rw [show (0 : Nat) = j by omega]
      exact hd.2
  | succ l ih =>
    simp only [updateLevels, Option.bind_eq_bind, Option.bind_eq_some_iff] at hr
    obtain ⟨t, ht, hr⟩ := hr
    have his : ∀ i ∈ setBits c (l + 1) mods, i < c.count (l + 1) :=
      fun i hi => hmods i (mods_of_mem hi)
    refine ih (by omega) (fun p hp => ?_) ?_ hr
    · obtain ⟨i, hi, hp⟩ := List.any_eq_true.1 hp
      rw [beq_iff_eq] at hp
      rw [← hp]
      exact parent_lt hl (his i hi)
    · rw [updateNodes_tree ht]
      refine (settled_level (fun T i => T.refresh c mem n (l + 1) i)
        (fun _ _ => ⟨n, rfl⟩) (by omega) hl _ his h).mono ?_
      rintro l' - j hj (⟨⟨rfl, hm⟩, hnot⟩ | ⟨hl', i, hi, hp⟩)
      · exact absurd ⟨rfl, mem_setBits hl hj hm⟩ hnot
      · exact ⟨by omega, List.any_eq_true.2 ⟨i, hi, by simpa using hp⟩⟩

/-- **`update_ptree` settles the tree** where only the blocks in `cowb` were modified since it was
settled. -/
theorem updateTree_settled {cowb : Nat → Bool} {s s' : Tree × CheckpointRecord}
    (h : Settled c (fun l j => l + 1 = c.levels ∧ cowb j = true) mem s.1)
    (hcow : ∀ i, cowb i = true → i < c.nb) (hr : updateTree c mem n cowb s = some s') :
    Settled c (fun _ _ => False) mem s'.1 := by
  have hpos := c.levels_pos
  refine updateLevels_settled (by omega) (fun i hi => ?_) (h.mono
    fun l _ j _ hd => ⟨by omega, hd.2⟩) hr
  rw [count_last]
  exact hcow i hi

/-! ## The full computation settles the tree -/

theorem fill_eq {T : Tree} (h : (T.pt l i).d.value = 0) :
    fill c mem l T i = T.refresh c mem (T.pt l i).lm l i := by
  simp only [fill, refresh, h, subMod, Nat.not_lt_zero, if_false, Nat.sub_zero]

theorem foldl_fill {is : List Nat} (hnd : is.Nodup) (lm : Nat → Int) {T : Tree}
    (h : ∀ i ∈ is, T.pt l i = ⟨lm i, 0⟩) :
    is.foldl (fill c mem l) T = is.foldl (fun T i => T.refresh c mem (lm i) l i) T := by
  induction is generalizing T with
  | nil => rfl
  | cons i is ih =>
    rw [List.nodup_cons] at hnd
    have hi := h i (by simp)
    rw [List.foldl_cons, List.foldl_cons, fill_eq (by rw [hi]; exact value_zero), hi]
    refine ih hnd.2 fun j hj => ?_
    have hne : j ≠ i := by
      rintro rfl
      exact hnd.1 hj
    rw [pt_refresh, if_neg (by omega)]
    exact h j (by simp [hj])

/-- Refreshing nodes of one level with the stamps that they have. -/
theorem foldl_refresh_pt (c : TreeCfg) (mem : Nat → Block) (l : Nat) (lm : Nat → Int)
    (is : List Nat) (T : Tree) (l' j : Nat) :
    (l' ≠ l → (is.foldl (fun T i => T.refresh c mem (lm i) l i) T).pt l' j = T.pt l' j) ∧
    ((∀ j, (T.pt l j).lm = lm j) →
        ((is.foldl (fun T i => T.refresh c mem (lm i) l i) T).pt l j).lm = lm j) := by
  induction is generalizing T with
  | nil => exact ⟨fun _ => rfl, fun h => h j⟩
  | cons i is ih =>
    obtain ⟨h1, h2⟩ := ih (T.refresh c mem (lm i) l i)
    refine ⟨fun hne => ?_, fun h => h2 fun k => ?_⟩
    · rw [List.foldl_cons, h1 hne, pt_refresh, if_neg (fun hh => hne hh.1)]
    · rw [pt_refresh]
      split
      · rename_i hk
        rw [hk.2]
      · exact h k

theorem fillLevels_settled (lm : Nat → Nat → Int) (hl : l < c.levels)
    (h : Settled c (fun l' _ => l' ≤ l) mem T) (hblank : ∀ l' ≤ l, ∀ j, T.pt l' j = ⟨lm l' j, 0⟩)
    (hlm : ∀ l' j, (T.pt l' j).lm = lm l' j) :
    Settled c (fun _ _ => False) mem (fillLevels c mem l (c.count l) T) ∧
      ∀ l' j, ((fillLevels c mem l (c.count l) T).pt l' j).lm = lm l' j := by
  induction l generalizing T with
  | zero =>
    refine ⟨?_, fun l' j => ?_⟩
    · have : fillLevels c mem 0 (c.count 0) T = T.refreshRoot c mem (T.pt 0 0).lm := rfl
      rw [this]
      refine (settled_root h).mono fun l' _ j hj hd => hd.2 ?_
      have hl0 : l' = 0 := Nat.le_zero.1 hd.1
      subst hl0
      rw [count_root] at hj
      omega
    · rw [fillLevels, pt_setNode]
      split
      · rename_i hh
        rw [hh.1, hh.2]
        exact hlm 0 0
      · exact hlm l' j
  | succ l ih =>
    have hfold : (List.range (c.count (l + 1))).foldl (fill c mem (l + 1)) T = _ :=
      foldl_fill List.nodup_range (lm (l + 1)) fun i _ => hblank (l + 1) le_rfl i
    rw [fillLevels, ← count_succ hl, hfold]
    have hpt := foldl_refresh_pt c mem (l + 1) (lm (l + 1)) (List.range (c.count (l + 1))) T
    refine ih (by omega) ?_ (fun l' hl' j => ?_) fun l' j => ?_
    · refine (settled_level (fun T i => T.refresh c mem (lm (l + 1) i) (l + 1) i)
        (fun _ i => ⟨lm (l + 1) i, rfl⟩)
        (by omega) hl (List.range (c.count (l + 1))) (fun i hi => List.mem_range.1 hi) h).mono ?_
      rintro l' - j hj (⟨hd, hnot⟩ | ⟨hl', -⟩)
      · by_contra hne
        have hl' : l' = l + 1 := by omega
        subst hl'
        exact hnot ⟨rfl, List.mem_range.2 hj⟩
      · omega
    · rw [(hpt l' j).1 (by omega)]
      exact hblank l' (by omega) j
    · by_cases hl' : l' = l + 1
      · subst hl'
        exact (hpt (l + 1) j).2 fun k => hlm (l + 1) k
      · rw [(hpt l' j).1 hl']
        exact hlm l' j

theorem computeFull_settled (mem : Nat → Block) (lm : Nat → Nat → Int) :
    Settled c (fun _ _ => False) mem (computeFull c mem lm) ∧ ∀ l j,
      ((computeFull c mem lm).pt l j).lm = lm l j := by
  have hpos := c.levels_pos
  have hcount : c.nb = c.count (c.levels - 1) := count_last.symm
  unfold computeFull
  rw [hcount]
  refine fillLevels_settled lm (by omega) ⟨fun l hl p => ?_, fun l hl j hj hnot => ?_⟩
    (fun _ _ _ => rfl) fun _ _ => rfl
  · simp [childSum, blank]
  · exact absurd (by omega) hnot

/-! ## The nodes that are not over a block -/

theorem foldl_refresh_spare (lm : Nat → Int) {is : List Nat} (his : ∀ i ∈ is, i < c.count l)
    {l' j : Nat} (hj : c.count l' ≤ j) :
    (is.foldl (fun T i => T.refresh c mem (lm i) l i) T).pt l' j = T.pt l' j := by
  induction is generalizing T with
  | nil => rfl
  | cons i is ih =>
    have hi := his i (by simp)
    rw [List.foldl_cons, ih (fun i hi => his i (by simp [hi])), pt_refresh, if_neg]
    rintro ⟨rfl, rfl⟩
    omega

/-- The incremental computation leaves them alone. -/
theorem updateLevels_spare {mods : Nat → Bool} {s s' : Tree × CheckpointRecord} (hl : l < c.levels)
    (hmods : ∀ i, mods i = true → i < c.count l) (hr : updateLevels c mem n l mods s = some s')
    {l' j : Nat} (hj : c.count l' ≤ j) :
    s'.1.pt l' j = s.1.pt l' j := by
  induction l generalizing mods s with
  | zero =>
    rw [updateLevels] at hr
    split at hr
    · simp only [Option.bind_eq_bind, Option.bind_eq_some_iff, Option.some.injEq] at hr
      obtain ⟨cr, -, rfl⟩ := hr
      rw [refreshRoot, pt_setNode, if_neg]
      rintro ⟨rfl, rfl⟩
      rw [count_root] at hj
      omega
    · cases hr
      rfl
  | succ l ih =>
    simp only [updateLevels, Option.bind_eq_bind, Option.bind_eq_some_iff] at hr
    obtain ⟨t, ht, hr⟩ := hr
    have his : ∀ i ∈ setBits c (l + 1) mods, i < c.count (l + 1) :=
      fun i hi => hmods i (mods_of_mem hi)
    rw [ih (by omega) (fun p hp => ?_) hr, updateNodes_tree ht,
      foldl_refresh_spare (fun _ => n) his hj]
    obtain ⟨i, hi, hp⟩ := List.any_eq_true.1 hp
    rw [beq_iff_eq] at hp
    rw [← hp]
    exact parent_lt hl (his i hi)

/-- So does the full one. -/
theorem fillLevels_spare (lm : Nat → Nat → Int) (hl : l < c.levels)
    (hblank : ∀ l' ≤ l, ∀ j, T.pt l' j = ⟨lm l' j, 0⟩) {l' j : Nat} (hj : c.count l' ≤ j) :
    (fillLevels c mem l (c.count l) T).pt l' j = T.pt l' j := by
  induction l generalizing T with
  | zero =>
    rw [fillLevels, pt_setNode, if_neg]
    rintro ⟨rfl, rfl⟩
    rw [count_root] at hj
    omega
  | succ l ih =>
    have hfold : (List.range (c.count (l + 1))).foldl (fill c mem (l + 1)) T = _ :=
      foldl_fill List.nodup_range (lm (l + 1)) fun i _ => hblank (l + 1) le_rfl i
    have hpt := foldl_refresh_pt c mem (l + 1) (lm (l + 1)) (List.range (c.count (l + 1))) T
    rw [fillLevels, ← count_succ hl, hfold, ih (by omega) fun l' hl' j => ?_,
      foldl_refresh_spare (lm (l + 1)) (fun i hi => List.mem_range.1 hi) hj]
    rw [(hpt l' j).1 (by omega)]
    exact hblank l' (by omega) j

theorem computeFull_spare (mem : Nat → Block) (lm : Nat → Nat → Int) {l j : Nat}
    (hj : c.count l ≤ j) :
    (computeFull c mem lm).pt l j = ⟨lm l j, 0⟩ := by
  have hpos := c.levels_pos
  have hcount : c.nb = c.count (c.levels - 1) := count_last.symm
  unfold computeFull
  rw [hcount, fillLevels_spare lm (by omega) (fun _ _ _ => rfl) hj]
  rfl

/-! ## The tree of a memory -/

/-- Two settled trees of one memory with the same stamps agree. -/
theorem settled_unique (h : Settled c (fun _ _ => False) mem T)
    (h' : Settled c (fun _ _ => False) mem T')
    (hlm : ∀ l < c.levels, ∀ i < c.count l, (T.pt l i).lm = (T'.pt l i).lm) :
    (∀ l < c.levels, ∀ i < c.count l, T.pt l i = T'.pt l i) ∧ ∀ l,
      l + 1 < c.levels → ∀ p, T.sums l p = T'.sums l p := by
  have hsums : ∀ l, l + 1 < c.levels → (∀ i < c.count (l + 1), T.pt (l + 1) i = T'.pt (l + 1) i) →
      ∀ p, T.sums l p = T'.sums l p := by
    intro l hl hpt p
    rw [h.sums l hl p, h'.sums l hl p, childSum, childSum]
    have : ∀ j ∈ Finset.range (c.count (l + 1)),
      (if j / c.psize (l + 1) = p then (T.pt (l + 1) j).d.value else 0) =
        if j / c.psize (l + 1) = p then (T'.pt (l + 1) j).d.value else 0 := fun j hj => by
      rw [hpt j (Finset.mem_range.1 hj)]
    rw [Finset.sum_congr rfl this]
  have hpt : ∀ k l, l + k = c.levels - 1 → ∀ i < c.count l, T.pt l i = T'.pt l i := by
    intro k
    have hpos := c.levels_pos
    induction k with
    | zero =>
      intro l hl i hi
      have hd := h.digests l (by omega) i hi id
      have hd' := h'.digests l (by omega) i hi id
      rw [data, if_pos (by omega), hlm l (by omega) i hi] at hd
      rw [data, if_pos (by omega)] at hd'
      exact PartNode.eq_of (hlm l (by omega) i hi) (hd.trans hd'.symm)
    | succ k ih =>
      intro l hl i hi
      have hs := hsums l (by omega) (ih (l + 1) (by omega)) i
      have hd := h.digests l (by omega) i hi id
      have hd' := h'.digests l (by omega) i hi id
      rw [data, if_neg (by omega), hlm l (by omega) i hi, hs] at hd
      rw [data, if_neg (by omega)] at hd'
      exact PartNode.eq_of (hlm l (by omega) i hi) (hd.trans hd'.symm)
  have hall : ∀ l < c.levels, ∀ i < c.count l, T.pt l i = T'.pt l i := fun l hl i hi =>
    hpt (c.levels - 1 - l) l (by omega) i hi
  exact ⟨hall, fun l hl p => hsums l hl (hall (l + 1) hl) p⟩

end Tree

end TinyBFT
