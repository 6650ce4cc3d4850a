import TinyBFT.PartitionTree
import TinyBFT.Lib.Run

/-!
# Copy-on-write checkpoints (`State.cc:509-936`, `Modify.h`, `libbyz.h:281-308`)

The application declares its writes. The first write to a block after a checkpoint puts a copy of
the block into the record of that checkpoint; a checkpoint puts the partitions that change into it.
An old block is then found in the memory, if it was not modified since, or else in the first record
from its checkpoint on that has a copy.

| here | there |
| --- | --- |
| `CowState`     | `mem`, `cowb`, `lc`, `clog`, `ptree` and `stree`; `taken` is the history of checkpoints |
| `cowSingle`, `cow` | `State.cc:509-584`, without state translation |
| `Declare`      | `Byz_modify` (`State::cow`), `_Byz_modify1` or `_Byz_modify2` (`Modify.h:17-36`) |
| `Declare.Valid` | what `libbyz.h` requires: memory of the state, in one block or in at most two |
| `checkpoint`, `rollback`, `discard` | `checkpoint`, `rollback`, `discard_checkpoint` (`State.cc:737-828`) |
| `getData`, `getMetaData` | `get_data`, `get_meta_data` (`State.cc:838-936`), `none` a failed assertion |
| `start`        | the state after `compute_full_digest` (`State.cc:628-661`) |

The log of records is that of the static build; the log of the heap build gives the same answers
(`recordLog_refines`).
-/

namespace TinyBFT

/-- A checkpoint, as it was when it was taken. -/
structure Snapshot where
  seqno : Int
  mem : Nat → UInt8
  pt : Nat → Nat → PartNode

structure CowState where
  mem : Nat → UInt8
  cowb : Nat → Bool
  lc : Int
  clog : CheckpointRecordLog
  tree : Tree
  taken : List Snapshot

/-- How a write is declared; positions are relative to the start of the memory. -/
inductive Declare
  | cow (pos len : Nat)
  | modify1 (pos : Nat)
  | modify2 (pos len : Nat)
deriving DecidableEq, Repr

inductive CowOp
  | write (d : Declare) (bytes : List (Nat × UInt8))
  | checkpoint (n : Int)
  | rollback
  | discard (seqno le : Int)
deriving DecidableEq, Repr

variable (P : Params) (c : TreeCfg)

/-- The blocks of a range of bytes. -/
def TreeCfg.blocks (pos len : Nat) : List Nat :=
  List.range' (pos / c.blockSize) ((pos + len - 1) / c.blockSize - pos / c.blockSize + 1)

namespace Declare

/-- The bytes that may be written after the declaration. -/
def Covers : Declare → Nat → Prop
  | cow pos len, a | modify2 pos len, a => pos ≤ a ∧ a < pos + len
  | modify1 pos, a => a / c.blockSize = pos / c.blockSize

/-- What `libbyz.h` requires. -/
def Valid : Declare → Prop
  | cow _ _ => True
  | modify1 pos => pos < c.nb * c.blockSize
  | modify2 pos len =>
    pos + len ≤ c.nb * c.blockSize ∧ (pos + len - 1) / c.blockSize ≤ pos / c.blockSize + 1

end Declare

namespace CowState

/-- The contents of a block. -/
def block (mem : Nat → UInt8) (i : Nat) : Block :=
  (List.range c.blockSize).map fun k => mem (i * c.blockSize + k)

/-- `mem[i] = b->data`. -/
def putBlock (mem : Nat → UInt8) (i : Nat) (b : Block) : Nat → UInt8 := fun a =>
  if a / c.blockSize = i then b.getD (a % c.blockSize) 0 else mem a

/-! ## Declared writes -/

def cowSingle (s : CowState) (i : Nat) : Option CowState :=
  if c.nb ≤ i then none
  else do
    let p := s.tree.pt (c.levels - 1) i
    let r ← s.clog.fetch P s.lc
    let r ← r.append (c.levels - 1, i) ⟨p.lm, p.d, block c s.mem i⟩
    some { s with clog := s.clog.set P s.lc r, cowb := Function.update s.cowb i true }

/-- No copy is made of a block whose bit is set. -/
def cowUnlessSet (s : CowState) (i : Nat) : Option CowState :=
  if s.cowb i then some s else s.cowSingle P c i

def cowBlocks : List Nat → CowState → Option CowState
  | [], s => some s
  | i :: is, s => do cowBlocks is (← s.cowUnlessSet P c i)

/-- The assertion asks for a position after the first byte. -/
def cow (s : CowState) (pos len : Nat) : Option CowState :=
  if 0 < pos ∧ pos + len ≤ c.nb * c.blockSize then
    if len = 0 then some s else cowBlocks P c (c.blocks pos len) s else none

def declare (s : CowState) : Declare → Option CowState
  | .cow pos len => s.cow P c pos len
  | .modify1 pos => s.cowUnlessSet P c (pos / c.blockSize)
  | .modify2 pos len =>
    if s.cowb (pos / c.blockSize) && s.cowb ((pos + len - 1) / c.blockSize) then
      some s else s.cow P c pos len

def writeBytes (bytes : List (Nat × UInt8)) (mem : Nat → UInt8) : Nat → UInt8 :=
  bytes.foldl (fun mem b => Function.update mem b.1 b.2) mem

def write (s : CowState) (d : Declare) (bytes : List (Nat × UInt8)) : Option CowState := do
  let s ← s.declare P c d
  some { s with mem := writeBytes bytes s.mem }

/-! ## Checkpoints -/

def checkpoint (s : CowState) (n : Int) : Option CowState := do
  let cr ← s.clog.fetch P s.lc
  let u ← Tree.updateTree c (block c s.mem) n s.cowb (s.tree, cr)
  let clog := s.clog.set P s.lc u.2
  let nr ← clog.fetch P n
  some { mem := s.mem, cowb := fun _ => false, lc := n,
         clog := clog.set P n { nr with sd := (u.1.pt 0 0).d }, tree := u.1,
         taken := ⟨n, s.mem, u.1.pt⟩ :: s.taken }

/-- The blocks in the list get their copies back. -/
def restore (r : CheckpointRecord) : List Nat → (Nat → UInt8) → Option (Nat → UInt8)
  | [], mem => some mem
  | i :: is, mem => do
    let p ← r.fetch (c.levels - 1, i)
    restore r is (putBlock c mem i p.data)

def rollback (s : CowState) : Option CowState :=
  if s.lc < 0 then none
  else do
    let r ← s.clog.fetch P s.lc
    let mem ← restore c r ((List.range c.nb).filter s.cowb) s.mem
    some { s with
      mem, cowb :=
        fun _ => false, clog := s.clog.set P s.lc { r.clear with sd := (s.tree.pt 0 0).d } }

/-- The checkpoint that `discard_checkpoint` takes where the last one is discarded. -/
def closeCkpt (s : CowState) (seqno le : Int) : Option CowState :=
  if s.lc < seqno ∧ s.lc < le ∧ 0 ≤ s.lc then
    (s.checkpoint P c le).map fun s => { s with lc := -1 } else some s

def discard (s : CowState) (seqno le : Int) : Option CowState := do
  let s ← s.closeCkpt P c seqno le
  let clog ← s.clog.truncate P seqno
  some { s with clog }

/-! ## Old data -/

/-- The first record from `n` on, up to `lc`, that has state and a copy. -/
def search (s : CowState) (k : PartKey) : Nat → Int → Option Part
  | 0, _ => none
  | fuel + 1, n =>
    if s.lc < n then none
    else do
      let r ← s.clog.fetch P n
      match if r.sd.isZero then none else r.fetch k with
      | some p => some p
      | none => search s k fuel (n + P.ckptInterval)

/-- The rounds of the loop `for (; c <= lc; c += checkpoint_interval)`. -/
def rounds (s : CowState) (n : Int) : Nat := ((s.lc - n) / P.ckptInterval + 1).toNat

def getData (s : CowState) (n : Int) (i : Nat) : Option Block :=
  if s.clog.withinRange P n && decide (i < c.nb) then
    if (s.tree.pt (c.levels - 1) i).lm ≤ n ∧ s.cowb i = false then some (block c s.mem i)
    else (s.search P (c.levels - 1, i) (s.rounds P n) n).map Part.data
  else none

def getMetaData (s : CowState) (n : Int) (l i : Nat) : Option PartNode :=
  if s.clog.withinRange P n then
    if (s.tree.pt l i).lm ≤ n then some (s.tree.pt l i)
    else (s.search P (l, i) (s.rounds P n) n).map fun p => ⟨p.lm, p.d⟩
  else none

/-! ## Runs -/

def step (s : CowState) : CowOp → Option CowState
  | .write d bytes => s.write P c d bytes
  | .checkpoint n => s.checkpoint P c n
  | .rollback => s.rollback P c
  | .discard seqno le => s.discard P c seqno le

def start (mem : Nat → UInt8) : CowState :=
  let tree := Tree.computeFull c (block c mem) fun _ _ => 0
  { mem, cowb := fun _ => false, lc := 0, tree
    clog := CheckpointRecordLog.new.set P 0 { CheckpointRecord.new with sd := (tree.pt 0 0).d }
    taken := [⟨0, mem, tree.pt⟩] }

/-- A write that keeps to its declaration. -/
def WriteValid (d : Declare) (bytes : List (Nat × UInt8)) : Prop :=
  d.Valid c ∧ ∀ b ∈ bytes, d.Covers c b.1 ∧ b.1 < c.nb * c.blockSize

/-! ## What a declaration does -/

variable {P c} {s t : CowState} {d : Declare} {i : Nat}

theorem cowSingle_spec (h : s.cowSingle P c i = some t) :
    i < c.nb ∧ ∃ r r', s.clog.fetch P s.lc = some r ∧
      r.append (c.levels - 1, i) ⟨(s.tree.pt (c.levels - 1) i).lm,
          (s.tree.pt (c.levels - 1) i).d, block c s.mem i⟩ = some r' ∧
      t = { s with clog := s.clog.set P s.lc r', cowb := Function.update s.cowb i true } := by
  unfold cowSingle at h
  split at h
  · cases h
  · simp only [Option.bind_eq_bind, Option.bind_eq_some_iff, Option.some.injEq] at h
    obtain ⟨r, hr, r', hr', rfl⟩ := h
    exact ⟨by omega, r, r', hr, hr', rfl⟩

theorem cowUnlessSet_cases (h : s.cowUnlessSet P c i = some t) :
    (s.cowb i = true ∧ t = s) ∨ (s.cowb i = false ∧ s.cowSingle P c i = some t) := by
  unfold cowUnlessSet at h
  split at h
  · cases h
    exact .inl ⟨‹_›, rfl⟩
  · rename_i hclear
    exact .inr ⟨by simpa using hclear, h⟩

theorem cowBlocks_induct {I : CowState → Prop}
    (hstep : ∀ s t i, I s → s.cowb i = false → s.cowSingle P c i = some t → I t)
    {is : List Nat} (hs : I s) (h : cowBlocks P c is s = some t) : I t := by
  induction is generalizing s with
  | nil => cases h; exact hs
  | cons i is ih =>
    simp only [cowBlocks, Option.bind_eq_bind, Option.bind_eq_some_iff] at h
    obtain ⟨u, hu, h⟩ := h
    rcases cowUnlessSet_cases hu with ⟨-, rfl⟩ | ⟨hclear, hu⟩
    · exact ih hs h
    · exact ih (hstep s u i hs hclear hu) h

/-- **Declarations only copy blocks that are not copied yet.** What each copy keeps, a declaration
keeps. -/
theorem declare_induct {I : CowState → Prop}
    (hstep : ∀ s t i, I s → s.cowb i = false → s.cowSingle P c i = some t → I t) (hs : I s)
    (h : s.declare P c d = some t) : I t := by
  have hcow : ∀ {pos len : Nat}, s.cow P c pos len = some t → I t := by
    intro pos len h
    unfold cow at h
    split at h
    · split at h
      · cases h
        exact hs
      · exact cowBlocks_induct hstep hs h
    · cases h
  cases d with
  | cow pos len => exact hcow h
  | modify1 pos =>
    rcases cowUnlessSet_cases h with ⟨-, rfl⟩ | ⟨hclear, h⟩
    · exact hs
    · exact hstep s t _ hs hclear h
  | modify2 pos len =>
    simp only [declare] at h
    split at h
    · cases h
      exact hs
    · exact hcow h

/-- What a declaration leaves alone. -/
structure Kept (s t : CowState) : Prop where
  mem : t.mem = s.mem
  tree : t.tree = s.tree
  lc : t.lc = s.lc
  taken : t.taken = s.taken
  cowb : ∀ i, s.cowb i = true → t.cowb i = true

theorem cowSingle_kept {s₀ : CowState} (hs : Kept s₀ s) (h : s.cowSingle P c i = some t) :
    Kept s₀ t := by
  obtain ⟨-, _, _, -, -, rfl⟩ := cowSingle_spec h
  refine ⟨hs.mem, hs.tree, hs.lc, hs.taken, fun j hj => ?_⟩
  by_cases hji : j = i
  · simp [hji]
  · simpa [hji] using hs.cowb j hj

theorem declare_kept (h : s.declare P c d = some t) : Kept s t :=
  declare_induct (I := Kept s) (fun _ _ _ hs _ h => cowSingle_kept hs h) ⟨rfl,
    rfl, rfl, rfl, fun _ h => h⟩ h

theorem cowBlocks_covers {is : List Nat} (h : cowBlocks P c is s = some t) (hi : i ∈ is) :
    t.cowb i = true := by
  induction is generalizing s with
  | nil => simp at hi
  | cons j is ih =>
    simp only [cowBlocks, Option.bind_eq_bind, Option.bind_eq_some_iff] at h
    obtain ⟨u, hu, h⟩ := h
    have hkept : Kept u t :=
      cowBlocks_induct (I := Kept u) (fun _ _ _ hs _ h => cowSingle_kept hs h)
      ⟨rfl, rfl, rfl, rfl, fun _ h => h⟩ h
    rcases List.mem_cons.1 hi with rfl | hi
    · refine hkept.cowb i ?_
      rcases cowUnlessSet_cases hu with ⟨hset, rfl⟩ | ⟨-, hu⟩
      · exact hset
      · obtain ⟨-, _, _, -, -, rfl⟩ := cowSingle_spec hu
        simp
    · exact ih h hi

theorem cow_covers {pos len a : Nat} (h : s.cow P c pos len = some t) (h1 : pos ≤ a)
    (h2 : a < pos + len) :
    t.cowb (a / c.blockSize) = true := by
  unfold cow at h
  split at h
  · rw [if_neg (by omega)] at h
    refine cowBlocks_covers h ?_
    have hlo : pos / c.blockSize ≤ a / c.blockSize := Nat.div_le_div_right h1
    have hhi : a / c.blockSize ≤ (pos + len - 1) / c.blockSize := Nat.div_le_div_right (by omega)
    rw [TreeCfg.blocks, List.mem_range'_1]
    omega
  · cases h

/-- Every byte that a valid declaration covers is in a block that is copied. -/
theorem declare_covers {a : Nat} (hv : d.Valid c) (h : s.declare P c d = some t)
    (ha : d.Covers c a) :
    t.cowb (a / c.blockSize) = true := by
  cases d with
  | cow pos len => exact cow_covers h ha.1 ha.2
  | modify1 pos =>
    have ha : a / c.blockSize = pos / c.blockSize := ha
    rw [ha]
    rcases cowUnlessSet_cases h with ⟨hset, rfl⟩ | ⟨-, h⟩
    · exact hset
    · obtain ⟨-, _, _, -, -, rfl⟩ := cowSingle_spec h
      simp
  | modify2 pos len =>
    simp only [declare] at h
    split at h
    · rename_i hset
      cases h
      -- both bits were set, and the range spans at most these two blocks
      rw [Bool.and_eq_true] at hset
      have h1 : pos ≤ a := ha.1
      have h2 : a < pos + len := ha.2
      have hlo : pos / c.blockSize ≤ a / c.blockSize := Nat.div_le_div_right h1
      have hhi : a / c.blockSize ≤ (pos + len - 1) / c.blockSize := Nat.div_le_div_right (by omega)
      have hspan := hv.2
      rcases Nat.lt_or_ge (pos / c.blockSize) (a / c.blockSize) with hlt | hge
      · rw [show a / c.blockSize = (pos + len - 1) / c.blockSize by omega]
        exact hset.2
      · rw [show a / c.blockSize = pos / c.blockSize by omega]
        exact hset.1
    · exact cow_covers h ha.1 ha.2

theorem div_block {k : Nat} (hk : k < c.blockSize) : (i * c.blockSize + k) / c.blockSize = i := by
  rw [Nat.add_comm, Nat.add_mul_div_right _ _ c.blockSize_pos, Nat.div_eq_of_lt hk, Nat.zero_add]

theorem block_congr {mem mem' : Nat → UInt8} (h : ∀ a, a / c.blockSize = i → mem a = mem' a) :
    block c mem i = block c mem' i := by
  unfold block
  refine List.map_congr_left fun k hk => h _ (div_block (List.mem_range.1 hk))

theorem writeBytes_of_not_mem {bytes : List (Nat × UInt8)} {mem : Nat → UInt8} {a : Nat}
    (h : ∀ b ∈ bytes, b.1 ≠ a) :
    writeBytes bytes mem a = mem a := by
  induction bytes generalizing mem with
  | nil => rfl
  | cons b bytes ih =>
    rw [writeBytes, List.foldl_cons]
    refine (ih fun b' hb' => h b' (by simp [hb'])).trans ?_
    exact Function.update_of_ne (h b (by simp)).symm _ _

/-- A valid write changes only blocks whose bit is set. -/
theorem write_block {bytes : List (Nat × UInt8)} (hv : WriteValid c d bytes)
    (h : s.declare P c d = some t) (hi : t.cowb i = false) :
    block c (writeBytes bytes t.mem) i = block c s.mem i := by
  rw [← (declare_kept h).mem]
  refine block_congr fun a ha => writeBytes_of_not_mem fun b hb heq => ?_
  have := declare_covers hv.1 h (hv.2 b hb).1
  rw [heq, ha, hi] at this
  cases this

/-! ## The incremental tree -/

/-- The tree is settled but for the modified blocks. -/
structure TreeInv (c : TreeCfg) (s : CowState) : Prop where
  settled : Tree.Settled c (fun l j => l + 1 = c.levels ∧ s.cowb j = true) (block c s.mem) s.tree
  cowb : ∀ i, s.cowb i = true → i < c.nb
  spare : ∀ l j, c.count l ≤ j → (s.tree.pt l j).d = 0

theorem start_treeInv (mem : Nat → UInt8) : TreeInv c (start P c mem) := by
  refine ⟨((Tree.computeFull_settled (block c mem) fun _ _ => 0).1).mono
    fun _ _ _ _ h => h.elim, fun i hi => ?_, fun l j hj => ?_⟩
  · cases hi
  · change ((Tree.computeFull c (block c mem) fun _ _ => 0).pt l j).d = 0
    rw [Tree.computeFull_spare _ _ hj]

theorem declare_cowb_lt (hs : ∀ i, s.cowb i = true → i < c.nb) (h : s.declare P c d = some t)
    (i : Nat) (hi : t.cowb i = true) :
    i < c.nb := by
  refine declare_induct (I := fun u => ∀ i, u.cowb i = true →
    i < c.nb) (fun s t j hs _ h i hi => ?_) hs h i hi
  obtain ⟨hj, _, _, -, -, rfl⟩ := cowSingle_spec h
  by_cases hij : i = j
  · exact hij ▸ hj
  · exact hs i (by simpa [hij] using hi)

theorem write_treeInv {bytes : List (Nat × UInt8)} (hi : TreeInv c s) (hv : WriteValid c d bytes)
    (h : s.write P c d bytes = some t) : TreeInv c t := by
  simp only [write, Option.bind_eq_bind, Option.bind_eq_some_iff, Option.some.injEq] at h
  obtain ⟨u, hu, rfl⟩ := h
  have hk := declare_kept hu
  refine ⟨⟨fun l hl p => ?_, fun l hl i hlt hnot => ?_⟩,
    fun i hset => declare_cowb_lt hi.cowb hu i hset, fun l j hj => ?_⟩
  · change u.tree.sums l p = Tree.childSum c u.tree l p % c.modulus
    rw [hk.tree]
    exact hi.settled.sums l hl p
  · change (u.tree.pt l i).d = c.hash (u.tree.data c (block c (writeBytes bytes u.mem)) l i)
      i (u.tree.pt l i).lm
    have hold : ¬(l + 1 = c.levels ∧ s.cowb i = true) := fun hh => hnot ⟨hh.1, hk.cowb i hh.2⟩
    rw [hk.tree, hi.settled.digests l hl i hlt hold]
    unfold Tree.data
    split
    · rename_i hleaf
      have hcl : u.cowb i = false := by
        by_contra hne
        exact hnot ⟨hleaf, by simpa using hne⟩
      rw [write_block hv hu hcl]
    · rfl
  · change (u.tree.pt l j).d = 0
    rw [hk.tree]
    exact hi.spare l j hj

theorem checkpoint_spec {n : Int} (h : s.checkpoint P c n = some t) :
    ∃ cr u nr, s.clog.fetch P s.lc = some cr ∧
      Tree.updateTree c (block c s.mem) n s.cowb (s.tree, cr) = some u ∧
      (s.clog.set P s.lc u.2).fetch P n = some nr ∧
      t = { mem := s.mem, cowb := fun _ => false, lc := n
            clog := (s.clog.set P s.lc u.2).set P n { nr with sd := (u.1.pt 0 0).d }, tree := u.1
            taken := ⟨n, s.mem, u.1.pt⟩ :: s.taken } := by
  simp only [checkpoint, Option.bind_eq_bind, Option.bind_eq_some_iff, Option.some.injEq] at h
  obtain ⟨cr, h1, u, h2, nr, h3, rfl⟩ := h
  exact ⟨cr, u, nr, h1, h2, h3, rfl⟩

theorem checkpoint_treeInv {n : Int} (hi : TreeInv c s) (h : s.checkpoint P c n = some t) :
    TreeInv c t := by
  obtain ⟨cr, u, nr, -, h2, -, rfl⟩ := checkpoint_spec h
  refine ⟨(Tree.updateTree_settled hi.settled hi.cowb h2).mono
    fun _ _ _ _ h => h.elim, fun i hi => ?_, fun l j hj => ?_⟩
  · cases hi
  · have hpos := c.levels_pos
    have := Tree.updateLevels_spare (c := c) (by omega)
      (fun i hi' => by rw [Tree.count_last]; exact hi.cowb i hi') h2 hj
    exact (congrArg PartNode.d this).trans (hi.spare l j hj)

/-- Writes that keep to their declarations, and checkpoints. -/
def WritesAndCheckpoints (c : TreeCfg) : CowOp → Prop
  | .write d bytes => WriteValid c d bytes
  | .checkpoint _ => True
  | .rollback | .discard _ _ => False

theorem run_treeInv {mem : Nat → UInt8} {ops : List CowOp}
    (hv : ∀ op ∈ ops, WritesAndCheckpoints c op)
    (hr : Run.run (step P c) (start P c mem) ops = some s) : TreeInv c s := by
  suffices ∀ {s₀ : CowState}, TreeInv c s₀ → Run.run (step P c) s₀ ops = some s →
    TreeInv c s from this (start_treeInv mem) hr
  clear hr
  induction ops with
  | nil =>
    intro s₀ hi hr
    simp only [Run.run_nil, Option.some.injEq] at hr
    exact hr ▸ hi
  | cons op ops ih =>
    intro s₀ hi hr
    obtain ⟨u, hu, hr⟩ := Run.run_cons.1 hr
    refine ih (fun op hop => hv op (by simp [hop])) ?_ hr
    have hop := hv op (by simp)
    cases op with
    | write d bytes => exact write_treeInv hi hop hu
    | checkpoint n => exact checkpoint_treeInv hi hu
    | rollback => exact hop.elim
    | discard _ _ => exact hop.elim

/-- **The incremental digest tree equals the full one.** After declared writes and checkpoints,
whenever no block was modified since the last checkpoint, every digest and every sum is that of the
full computation for the current memory and stamps; and two such states with the same memory and
stamps have the same root digest. -/
theorem tree_eq_full {mem : Nat → UInt8} {ops : List CowOp}
    (hv : ∀ op ∈ ops, WritesAndCheckpoints c op)
    (hr : Run.run (step P c) (start P c mem) ops = some s) (hclean : ∀ i, s.cowb i = false) :
    (∀ l < c.levels, ∀ i,
      s.tree.pt l i = (Tree.computeFull c (block c s.mem) fun l i => (s.tree.pt l i).lm).pt l i) ∧
    (∀ l, l + 1 < c.levels → ∀ p,
      s.tree.sums l p = (Tree.computeFull c (block c s.mem)
        fun l i => (s.tree.pt l i).lm).sums l p) ∧
    ∀ {mem' : Nat → UInt8} {ops' : List CowOp} {s' : CowState},
      (∀ op ∈ ops', WritesAndCheckpoints c op) →
      Run.run (step P c) (start P c mem') ops' = some s' → (∀ i, s'.cowb i = false) →
      (∀ i < c.nb, block c s'.mem i = block c s.mem i) →
      (∀ l < c.levels, ∀ i < c.count l, (s'.tree.pt l i).lm = (s.tree.pt l i).lm) →
        s'.tree.pt 0 0 = s.tree.pt 0 0 := by
  have settle : ∀ {s : CowState}, TreeInv c s → (∀ i, s.cowb i = false) →
      Tree.Settled c (fun _ _ => False) (block c s.mem) s.tree := fun hi hcl =>
    hi.settled.mono fun l _ j _ hd => by rw [hcl j] at hd; cases hd.2
  have hi := run_treeInv hv hr
  obtain ⟨hfull, hlm⟩ :=
    Tree.computeFull_settled (c := c) (block c s.mem) fun l i => (s.tree.pt l i).lm
  obtain ⟨hpt, hsums⟩ := Tree.settled_unique (settle hi hclean) hfull fun l _ i _ => (hlm l i).symm
  refine ⟨fun l hl i => ?_, hsums, fun hv' hr' hcl' hmem hstamps => ?_⟩
  · by_cases hlt : i < c.count l
    · exact hpt l hl i hlt
    · rw [Tree.computeFull_spare _ _ (by omega)]
      exact PartNode.eq_of rfl (hi.spare l i (by omega))
  · have hi' := run_treeInv hv' hr'
    have hs' := settle hi' hcl'
    have hs'' : Tree.Settled c (fun _ _ => False) (block c s.mem) _ :=
      ⟨hs'.sums, fun l hl i hlt _ => by
      rw [hs'.digests l hl i hlt id]
      unfold Tree.data
      split
      · rename_i hleaf
        rw [hmem i]
        rwa [show l = c.levels - 1 by omega, Tree.count_last] at hlt
      · rfl⟩
    exact (Tree.settled_unique hs'' (settle hi hclean) hstamps).1
      0 c.levels_pos 0 (Tree.count_pos c.levels_pos)

/-- A memory of two blocks of two bytes, and a sum in place of a hash. -/
def twoBlocks : TreeCfg where
  levels := 2
  psize l := if l = 0 then 1 else 2
  nb := 2
  blockSize := 2
  modulus := 2 ^ 256
  hash b i n := BitVec.ofNat 256 (b.foldl (fun x y => x * 256 + y.toNat) (i + n.toNat + 1))
  levels_pos := Nat.two_pos
  psize_pos l := by split <;> decide
  nb_pos := Nat.two_pos
  nb_le := by decide
  blockSize_pos := Nat.two_pos
  modulus_ge := le_rfl

/-- A write across both blocks, and a checkpoint. -/
def crossRun : List CowOp := [.write (.cow 1 2) [(1, 7), (2, 9)], .checkpoint 128]

theorem tree_eq_full_twoBlocks :
    ∃ s, Run.run (step Params.default twoBlocks) (start Params.default twoBlocks fun _ => 0)
    crossRun = some s ∧ ∀ l < 2, ∀ i,
      s.tree.pt l i = (Tree.computeFull twoBlocks (block twoBlocks s.mem)
          fun l i => (s.tree.pt l i).lm).pt l i := by
  have hv : ∀ op ∈ crossRun, WritesAndCheckpoints twoBlocks op := by
    simp only [crossRun, List.mem_cons, List.not_mem_nil, or_false]
    rintro op (rfl | rfl)
    · refine ⟨trivial, ?_⟩
      simp only [List.mem_cons, List.not_mem_nil, or_false]
      rintro b (rfl | rfl) <;> simp [Declare.Covers, twoBlocks]
    · trivial
  obtain ⟨s, hr, hcl⟩ : ∃ s, Run.run (step Params.default twoBlocks) (start Params.default twoBlocks
    fun _ => 0) crossRun = some s ∧
      ∀ i, s.cowb i = false := ⟨_, rfl, fun _ => rfl⟩
  exact ⟨s, hr, (tree_eq_full hv hr hcl).1⟩

end CowState

end TinyBFT
