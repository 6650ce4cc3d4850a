import TinyBFT.CheckpointData
import Mathlib.Data.List.Range

/-!
# `Meta_data` messages (`Meta_data.h`, `Meta_data.cc`)

A `Meta_data` lists sub-partitions of a partition with their digests. The receiver goes through all
sub-partitions with an iterator; those that are not listed have a null digest.

| here | there |
| --- | --- |
| `PartInfo`, `MetaData` | `Part_info`, `Meta_data_rep` (`Meta_data.h:16-36`); `parts k` is what stands at `parts()[k]` |
| `verify`       | `Meta_data.cc:76-108`; `unlisted` is the loop with the bitmap |
| `SubPartsIter` | `Sub_parts_iter`, with its constructor `iter` and `get` (`Meta_data.cc:36-74`) |
| `drain`        | `while (iter.get(i, d))` (`State.cc:1332-1414`), without the `break`s |

`verify` takes the sub-partitions in any order, but the iterator expects them in increasing order.
-/

namespace TinyBFT

structure PartInfo where
  i : Int
  d : Digest
deriving DecidableEq, Repr

structure MetaData where
  rid : Int
  lu : Int
  lm : Int
  l : Int
  i : Int
  d : Digest
  id : Nat
  np : Int
  parts : Nat → PartInfo
  size : Int

namespace MetaData

variable (c : TreeCfg) (E : Env) (m : MetaData)

/-- `sizeof(Meta_data_rep)`. -/
def repSize : Nat := 80

/-- `sizeof(Part_info)`. -/
def partSize : Nat := 36

/-- `PSize[level() + 1]`. -/
def width : Nat := c.psize (m.l + 1).toNat

/-- The entries that the message says it has. -/
def listed : List PartInfo := (List.range m.np.toNat).map m.parts

/-- Every entry is in range, and is not in the bitmap yet. -/
def unlisted (min max : Int) : List PartInfo → (Nat → Bool) → Bool
  | [], _ => true
  | p :: ps, sparts =>
    if p.i < min ∨ max ≤ p.i ∨ sparts (p.i - min).toNat then false
    else unlisted min max ps (Function.update sparts (p.i - min).toNat true)

/-- A negative `old_size` asks for 8 bytes at most, which a message has. -/
def verify : Bool :=
  let min := m.i * m.width c
  E.isReplica m.id && E.id != m.id && decide (0 ≤ m.l ∧ m.l < c.levels - 1) &&
    decide (0 ≤ m.i ∧ m.i < levelSize c.psize m.l.toNat) &&
    decide (¬(1 < m.np ∧ (m.width c : Int) < m.np)) && decide (m.lm ≤ m.lu) &&
    decide (alignedSize (toInt (repSize + m.np * partSize)).toNat ≤ m.size) &&
      unlisted min (min + m.width c) m.listed fun _ => false

structure SubPartsIter where
  curMod : Nat
  maxMod : Int
  index : Int
  maxIndex : Int

def iter : SubPartsIter :=
  if m.l ≠ c.levels - 1 then
    ⟨0, m.np, m.i * m.width c, m.i * m.width c + m.width c⟩ else ⟨0, m.np, m.i, m.i + 1⟩

def SubPartsIter.get (it : SubPartsIter) : Option (Option (Int × Digest) × SubPartsIter) :=
  if it.index < it.maxIndex then
    if it.curMod < it.maxMod then
      let cur := m.parts it.curMod
      if it.index < cur.i then some (some (it.index, 0), { it with index := it.index + 1 })
      else if it.index = cur.i then
        some (some (it.index, cur.d), { it with index := it.index + 1, curMod := it.curMod + 1 })
      else none
    else some (some (it.index, 0), { it with index := it.index + 1 })
  else some (none, it)

/-- What the loop is given in `fuel` calls of `get`, the last of which returns false. -/
def drain : Nat → SubPartsIter → Option (List (Int × Digest))
  | 0, _ => none
  | fuel + 1, it => do
    match ← it.get m with
    | (none, _) => some []
    | (some x, it) => (drain fuel it).map (x :: ·)

end MetaData

/-! ## The walk over the children -/

namespace PartInfo

/-- The digest of `i` in a list, null if it has none. -/
def carried (ps : List PartInfo) (i : Int) : Digest := ((ps.find? (·.i == i)).map (·.d)).getD 0

/-- The next `k` children from `a` on, and the entries that were not passed yet. -/
def merge : Nat → Int → List PartInfo → Option (List (Int × Digest))
  | 0, _, _ => some []
  | k + 1, a, [] => (merge k (a + 1) []).map ((a, 0) :: ·)
  | k + 1, a, p :: ps =>
    if a < p.i then (merge k (a + 1) (p :: ps)).map ((a, 0) :: ·)
    else if a = p.i then (merge k (a + 1) ps).map ((a, p.d) :: ·)
    else none

/-- Each of the children `a`, ..., `a + k - 1` once, with its digest. -/
def children (k : Nat) (a : Int) (f : Int → Digest) : List (Int × Digest) :=
  (List.range k).map fun j : Nat => (a + j, f (a + j))

theorem children_succ (k : Nat) (a : Int) (f : Int → Digest) :
    children (k + 1) a f = (a, f a) :: children k (a + 1) f := by
  simp [children, List.range_succ_eq_map, Function.comp_def, add_comm, add_left_comm]

theorem children_congr {k : Nat} {a : Int} {f g : Int → Digest} :
    children k a f = children k a g ↔ ∀ i, a ≤ i → i < a + k → f i = g i := by
  simp only [children, List.map_inj_left, List.mem_range, Prod.mk.injEq, true_and]
  constructor
  · intro h i h1 h2
    have := h (i - a).toNat (by omega)
    rwa [show a + ((i - a).toNat : Int) = i by omega] at this
  · exact fun h j hj => h _ (by omega) (by omega)

@[simp] theorem carried_nil (i : Int) : carried [] i = 0 := rfl

@[simp] theorem carried_cons_self (p : PartInfo) (ps : List PartInfo) :
    carried (p :: ps) p.i = p.d := by simp [carried]

theorem carried_cons_of_ne {p : PartInfo} {ps : List PartInfo} {i : Int} (h : p.i ≠ i) :
    carried (p :: ps) i = carried ps i := by
  simp [carried, beq_eq_false_iff_ne.2 h]

theorem carried_eq_zero {ps : List PartInfo} {i : Int} (h : ∀ p ∈ ps, p.i ≠ i) :
    carried ps i = 0 := by
  have hnone : ps.find? (·.i == i) = none := List.find?_eq_none.2 fun p hp => by simpa using h p hp
  simp [carried, hnone]

theorem carried_append_left {ps qs : List PartInfo} {i : Int} (h : ∀ p ∈ qs, p.i ≠ i) :
    carried (ps ++ qs) i = carried ps i := by
  induction ps with
  | nil => rw [List.nil_append, carried_eq_zero h, carried_nil]
  | cons p ps ih =>
    by_cases hi : p.i = i
    · subst hi
      simp
    · rw [List.cons_append, carried_cons_of_ne hi, ih, carried_cons_of_ne hi]

theorem carried_of_mem {ps : List PartInfo} {p : PartInfo} (hp : p ∈ ps)
    (hd : (ps.map (·.i)).Nodup) : carried ps p.i = p.d := by
  induction ps with
  | nil => cases hp
  | cons q qs ih =>
    rw [List.map_cons, List.nodup_cons] at hd
    rcases List.mem_cons.1 hp with rfl | hp
    · simp
    · rw [carried_cons_of_ne fun h => hd.1 (h ▸ List.mem_map_of_mem hp), ih hp hd.2]

/-- The entries of `front` are in increasing order, and only the last child has others behind it. -/
structure Split (k : Nat) (a : Int) (front back : List PartInfo) : Prop where
  sorted : front.Pairwise (·.i < ·.i)
  ge : ∀ p ∈ front, a ≤ p.i
  tail : back ≠ [] → k = 0 ∨ ∃ p ∈ front, p.i = a + k - 1

/-- The walk over entries in increasing order. -/
theorem merge_split : ∀ {k : Nat} {a : Int} {front back : List PartInfo},
    Split k a front back → (∀ p ∈ front, p.i < a + k) →
    merge k a (front ++ back) = some (children k a (carried front))
  | 0, _, _, _, _, _ => rfl
  | k + 1, a, [], back, h, hlt => by
    have hback : back = [] := by
      by_contra hne
      rcases h.tail hne with h0 | ⟨p, hp, -⟩
      · cases h0
      · cases hp
    have ih := @merge_split k (a + 1) [] [] ⟨.nil, nofun, nofun⟩ nofun
    rw [List.append_nil] at ih
    rw [hback, List.append_nil, merge, children_succ, ih]
    rfl
  | k + 1, a, p :: front, back, h, hlt => by
    obtain ⟨hsort, hsort'⟩ := List.pairwise_cons.1 h.sorted
    have hge := h.ge p (by simp)
    have htail : back ≠ [] → ∃ q ∈ p :: front, q.i = a + 1 + k - 1 := by
      intro hne
      rcases h.tail hne with h0 | ⟨q, hq, heq⟩
      · cases h0
      · exact ⟨q, hq, by omega⟩
    rw [List.cons_append, merge]
    by_cases hlt' : a < p.i
    · have hgt : ∀ q ∈ p :: front, a + 1 ≤ q.i := by
        intro q hq
        rcases List.mem_cons.1 hq with rfl | hq
        · omega
        · have := hsort q hq
          omega
      have ih :=
        @merge_split k (a + 1) (p :: front) back ⟨h.sorted, hgt, fun hne => .inr (htail hne)⟩
        fun q hq => by have := hlt q hq; omega
      rw [if_pos hlt', ← List.cons_append, ih, children_succ,
        carried_eq_zero (i := a), Option.map_some]
      exact fun q hq => by have := hgt q hq; omega
    · have heq : a = p.i := by omega
      have ih := @merge_split k (a + 1) front back
        ⟨hsort', fun q hq => by have := hsort q hq; omega, fun hne => ?_⟩ fun q hq => by
          have := hlt q (by simp [hq])
          omega
      · rw [if_neg hlt', if_pos heq, ih, children_succ, heq, carried_cons_self, Option.map_some]
        congr 2
        exact children_congr.2 fun i h1 _ => (carried_cons_of_ne (by omega)).symm
      · obtain ⟨q, hq, hqe⟩ := htail hne
        rcases List.mem_cons.1 hq with rfl | hq
        · exact .inl (by omega)
        · exact .inr ⟨q, hq, hqe⟩

/-- The walk gets to the end only over entries in increasing order. -/
theorem split_of_merge :
    ∀ {k : Nat} {a : Int} {ps : List PartInfo} {xs : List (Int × Digest)}, merge k a ps = some xs →
    (∀ p ∈ ps, p.i < a + k) → ∃ front back, ps = front ++ back ∧ Split k a front back
  | 0, _, ps, _, _, _ => ⟨[], ps, rfl, .nil, nofun, fun _ => .inl rfl⟩
  | _ + 1, _, [], _, _, _ => ⟨[], [], rfl, .nil, nofun, nofun⟩
  | k + 1, a, p :: ps, xs, h, hlt => by
    rw [merge] at h
    split at h
    · obtain ⟨ys, hys, -⟩ := Option.map_eq_some_iff.1 h
      obtain ⟨front, back, heq, hs⟩ := split_of_merge hys fun q hq => by have := hlt q hq; omega
      refine ⟨front, back, heq, hs.sorted, fun q hq => by have := hs.ge q hq; omega, fun hne => ?_⟩
      rcases hs.tail hne with rfl | ⟨q, hq, hqe⟩
      · have := hlt p (by simp)
        omega
      · exact .inr ⟨q, hq, by omega⟩
    · split at h
      · obtain ⟨ys, hys, -⟩ := Option.map_eq_some_iff.1 h
        obtain ⟨front, back, rfl, hs⟩ :=
          split_of_merge hys fun q hq => by have := hlt q (by simp [hq]); omega
        refine ⟨p :: front, back, List.cons_append.symm,
          List.pairwise_cons.2 ⟨fun q hq => by have := hs.ge q hq; omega, hs.sorted⟩,
          fun q hq => ?_, fun hne => .inr ?_⟩
        · rcases List.mem_cons.1 hq with rfl | hq
          · omega
          · have := hs.ge q hq
            omega
        · rcases hs.tail hne with rfl | ⟨q, hq, hqe⟩
          · exact ⟨p, by simp, by omega⟩
          · exact ⟨q, by simp [hq], by omega⟩
      · cases h

end PartInfo

namespace MetaData

open PartInfo

variable {c : TreeCfg} {E : Env} {m : MetaData}

/-! ## The iterator -/

theorem listed_drop {k : Nat} (h : (k : Int) < m.np) :
    m.listed.drop k = m.parts k :: m.listed.drop (k + 1) := by
  have hlen : k < m.listed.length := by
    rw [listed, List.length_map, List.length_range]
    omega
  rw [List.drop_eq_getElem_cons hlen]
  simp [listed]

theorem listed_drop_of_ge {k : Nat} (h : m.np ≤ k) : m.listed.drop k = [] := by
  refine List.drop_eq_nil_of_le ?_
  rw [listed, List.length_map, List.length_range]
  omega

/-- The loop is the walk over the entries from `curMod` on. -/
theorem drain_eq :
    ∀ {fuel k : Nat} {it : SubPartsIter}, it.maxMod = m.np → it.maxIndex = it.index + k →
    m.drain fuel it = if k < fuel then merge k it.index (m.listed.drop it.curMod) else none
  | 0, _, _, _, _ => rfl
  | fuel + 1, 0, it, _, hmax => by
    rw [drain, SubPartsIter.get, if_neg (by omega), if_pos (Nat.succ_pos _)]
    rfl
  | fuel + 1, k + 1, it, hmod, hmax => by
    have hfuel : k + 1 < fuel + 1 ↔ k < fuel := by omega
    rw [drain, SubPartsIter.get, if_pos (by omega)]
    simp only [hfuel]
    by_cases hcur : (it.curMod : Int) < it.maxMod
    · rw [if_pos hcur, listed_drop (hmod ▸ hcur), merge]
      split
      · rw [Option.bind_eq_bind, Option.bind_some]
        dsimp only
        rw [@drain_eq fuel k { it with index := it.index + 1 } hmod (by dsimp only; omega),
          listed_drop (hmod ▸ hcur)]
        split <;> rfl
      · split
        · rw [Option.bind_eq_bind, Option.bind_some]
          dsimp only
          rw [@drain_eq fuel k { it with index := it.index + 1,
                                         curMod := it.curMod + 1 } hmod (by dsimp only; omega)]
          split <;> rfl
        · rw [ite_self]
          rfl
    · have hnil := listed_drop_of_ge (m := m) (k := it.curMod) (by omega)
      rw [if_neg hcur, Option.bind_eq_bind, Option.bind_some, hnil, merge]
      dsimp only
      rw [@drain_eq fuel k { it with index := it.index + 1 } hmod (by dsimp only; omega), hnil]
      split <;> rfl

/-! ## Verified messages -/

theorem unlisted_spec {min max : Int} :
    ∀ {ps : List PartInfo} {sparts : Nat → Bool}, unlisted min max ps sparts = true →
    (∀ p ∈ ps, min ≤ p.i ∧ p.i < max ∧ sparts (p.i - min).toNat = false) ∧ (ps.map (·.i)).Nodup
  | [], _, _ => ⟨nofun, .nil⟩
  | p :: ps, sparts, h => by
    rw [unlisted] at h
    split at h
    · cases h
    rename_i hp
    obtain ⟨h1, h2⟩ := unlisted_spec h
    have hne : ∀ q ∈ ps, q.i ≠ p.i := by
      intro q hq heq
      have := (h1 q hq).2.2
      rw [heq, Function.update_self] at this
      cases this
    refine ⟨fun q hq => ?_, List.nodup_cons.2 ⟨fun hmem => ?_, h2⟩⟩
    · rcases List.mem_cons.1 hq with rfl | hq
      · simp only [not_or, not_lt, not_le, Bool.not_eq_true] at hp
        exact hp
      · obtain ⟨h3, h4, h5⟩ := h1 q hq
        have := hne q hq
        have := (h1 q hq).1
        rw [Function.update_of_ne (by simp only [not_or, not_lt] at hp; omega)] at h5
        exact ⟨h3, h4, h5⟩
    · obtain ⟨q, hq, heq⟩ := List.mem_map.1 hmem
      exact hne q hq heq

theorem verify_spec (h : m.verify c E = true) : m.l < c.levels - 1 ∧
    (∀ p ∈ m.listed, m.i * m.width c ≤ p.i ∧ p.i < m.i * m.width c + m.width c) ∧
      (m.listed.map (·.i)).Nodup := by
  simp only [verify, Bool.and_eq_true, decide_eq_true_eq] at h
  obtain ⟨h1, h2⟩ := unlisted_spec h.2
  exact ⟨h.1.1.1.1.1.2.2, fun p hp => ⟨(h1 p hp).1, (h1 p hp).2.1⟩, h2⟩

/-- The sub-partitions are in increasing order; behind the last one of all there may be some with a
null digest. -/
def InOrder (c : TreeCfg) (m : MetaData) : Prop :=
  ∃ front back, m.listed = front ++ back ∧ front.Pairwise (·.i < ·.i) ∧
    (back ≠ [] → ∃ p ∈ front, p.i = m.i * m.width c + m.width c - 1) ∧ ∀ p ∈ back, p.d = 0

/-- **The iterator goes through a verified message**, to its end and with every child once and the
digest of the message, exactly if its sub-partitions are `InOrder`. -/
theorem subParts_iff (h : m.verify c E = true) :
    (∃ fuel, m.drain fuel (m.iter c) =
        some (children (m.width c) (m.i * m.width c) (carried m.listed))) ↔ m.InOrder c := by
  obtain ⟨hl, hin, hnodup⟩ := verify_spec h
  have hw : 0 < m.width c := c.psize_pos _
  have hiter : m.iter c = ⟨0, m.np, m.i * m.width c, m.i * m.width c + m.width c⟩ :=
    if_pos (by omega)
  have hdrain : ∀ fuel, m.drain fuel (m.iter c) = if m.width c < fuel then
    merge (m.width c) (m.i * m.width c) m.listed else none := by
    intro fuel
    rw [hiter]
    exact drain_eq (k := m.width c) rfl rfl
  -- a digest behind the last child is not found
  have hback : ∀ {front back : List PartInfo}, m.listed = front ++ back →
    (∀ p ∈ back, carried front p.i = 0) := by
    intro front back heq p hp
    rw [heq, List.map_append, List.nodup_append] at hnodup
    exact carried_eq_zero fun q hq hqp =>
      hnodup.2.2 _ (List.mem_map_of_mem hq) _ (List.mem_map_of_mem hp) hqp
  constructor
  · rintro ⟨fuel, hd⟩
    rw [hdrain, Option.ite_none_right_eq_some] at hd
    obtain ⟨front, back, heq, hs⟩ := split_of_merge hd.2 fun p hp => (hin p hp).2
    refine ⟨front, back, heq, hs.sorted, fun hne => (hs.tail hne).resolve_left hw.ne',
      fun p hp => ?_⟩
    have hmem : p ∈ m.listed := heq ▸ List.mem_append_right _ hp
    have hm := merge_split hs fun q hq => (hin q (heq ▸ List.mem_append_left _ hq)).2
    rw [← heq, hd.2, Option.some.injEq, children_congr] at hm
    rw [← carried_of_mem hmem hnodup, hm p.i (hin p hmem).1 (hin p hmem).2, hback heq p hp]
  · rintro ⟨front, back, heq, hsort, htail, hzero⟩
    refine ⟨m.width c + 1, ?_⟩
    have hin' : ∀ p ∈ front, m.i * m.width c ≤ p.i ∧ p.i < m.i * m.width c + m.width c :=
      fun p hp => hin p (heq ▸ List.mem_append_left _ hp)
    rw [hdrain, if_pos (Nat.lt_succ_self _), heq, merge_split ⟨hsort,
      fun p hp => (hin' p hp).1, fun hne => .inr (htail hne)⟩ fun p hp => (hin' p hp).2,
      Option.some.injEq, children_congr]
    intro i _ _
    by_cases hi : ∃ p ∈ back, p.i = i
    · obtain ⟨p, hp, rfl⟩ := hi
      rw [hback heq p hp, ← heq,
        carried_of_mem (heq ▸ List.mem_append_right _ hp) hnodup, hzero p hp]
    · exact (carried_append_left fun p hp hpi => hi ⟨p, hp, hpi⟩).symm

/-- The message of replica 2 for the root, with these sub-partitions. -/
def ofParts (ps : List PartInfo) : MetaData :=
  ⟨5, 0, 0, 0, 0, 0, 2, ps.length, fun k => ps.getD k ⟨0, 0⟩, 80 + ps.length * 40⟩

/-- Two sub-partitions the other way round: `verify` takes the message, and the iterator fails its
assertion. -/
theorem descending_accepted :
    (ofParts [⟨1, 8⟩, ⟨0, 7⟩]).verify CowState.threeBlocks ⟨4, 1, 1, false⟩ = true ∧
    ∀ fuel, (ofParts [⟨1, 8⟩, ⟨0, 7⟩]).drain fuel
      ((ofParts [⟨1, 8⟩, ⟨0, 7⟩]).iter CowState.threeBlocks) = none := by
  refine ⟨by decide, fun fuel => ?_⟩
  rw [drain_eq (k := 3) rfl rfl]
  split
  · decide
  · rfl

theorem subParts_iff_ascending :
    ∃ fuel, (ofParts [⟨0, 7⟩, ⟨2, 8⟩]).drain fuel
      ((ofParts [⟨0, 7⟩, ⟨2, 8⟩]).iter CowState.threeBlocks) =
      some (children 3 0 (carried [⟨0, 7⟩, ⟨2, 8⟩])) :=
  (subParts_iff (c := CowState.threeBlocks) (E := ⟨4, 1, 1, false⟩) (by decide)).2
    ⟨[⟨0, 7⟩, ⟨2, 8⟩], [], rfl, by decide, nofun, nofun⟩

end MetaData

end TinyBFT
