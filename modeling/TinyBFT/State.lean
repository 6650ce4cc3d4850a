import TinyBFT.Node
import TinyBFT.Log

/-!
# `State` (`State.h`, `State.cc`): checkpoints of the replicated memory

Memory is copied on write: the first write to a block after a checkpoint saves the block in the
record of that checkpoint, and `rollback` puts the saved blocks back.

| here | there |
| --- | --- |
| `CkptRec`     | `Checkpoint_rec`, `CheckpointRecord`: `sd` and the saved blocks |
| `State`       | `mem`, `cowb`, `lc`, `clog`, `fetching`; `lm` and `root` are the stamps and the root digest of `ptree` |
| `cow`, `write`, `writeAll` | `cow_single` (`State.cc:517-565`), and writes that were declared |
| `checkpoint`  | `checkpoint` with `update_ptree` (`State.cc:665-750`) |
| `rollback`    | `rollback` (`State.cc:752-808`) |
| `digest`, `discardCheckpoint`, `startFetch` | `State.cc:810-828`, `:938-985` |
| `endFetch`    | the end of a state transfer (`State.cc:1615-1630`), with what it fetched |

The log of records is the heap build's, of size `2 * max_out`. The copies of inner partitions in a
record are left out: only state transfer reads them. An operation returns `none` where an assertion
fails or a pointer is null.
-/

namespace TinyBFT

structure CkptRec where
  sd : Digest
  blocks : Nat → Option Block

structure State where
  mem : Mem
  cowb : List Nat
  lc : Int
  clog : Log CkptRec
  lm : Nat → Int
  root : Digest
  fetching : Bool

namespace State

variable (cfg : Cfg)

/-- `clear` of a record. -/
def clearRec (_ : CkptRec) : CkptRec := ⟨0, fun _ => none⟩

/-- The size of `clog`. -/
def logSize : Nat := cfg.P.maxOut * 2

/-- The state after `compute_full_digest` (`State.cc:634-660`) on the initial memory. -/
def new (mem : Mem) : State :=
  let root := cfg.treeDigest mem fun _ => 0
  { mem, cowb := [], lc := 0,
    clog := ⟨0, fun k => if k = 0 then ⟨root, fun _ => none⟩ else clearRec ⟨0, fun _ => none⟩⟩,
    lm := fun _ => 0, root, fetching := false }

/-- Save block `i` in the record of the last checkpoint, unless it is saved. -/
def cow (s : State) (i : Nat) : Option State :=
  if s.cowb.contains i then some s
  else do
    let r ← s.clog.fetch (logSize cfg) s.lc
    if (r.blocks i).isSome then none
    else some { s with
      clog := s.clog.set (logSize cfg) s.lc { r with
        blocks := Function.update r.blocks i (some (s.mem i)) }
      cowb := i :: s.cowb }

def write (s : State) (i : Nat) (b : Block) : Option State := do
  let s ← s.cow cfg i
  some { s with mem := Function.update s.mem i b }

/-- The writes of a batch, in order. -/
def writeAll : List (Nat × Block) → State → Option State
  | [], s => some s
  | (i, b) :: ws, s => do writeAll ws (← s.write cfg i b)

/-- Blocks modified since the last checkpoint get the stamp `n`, and the digests follow. -/
def updatePtree (s : State) (n : Int) : State :=
  let lm := fun i => if s.cowb.contains i then n else s.lm i
  { s with lm, root := if s.cowb.isEmpty then s.root else cfg.treeDigest s.mem lm }

def checkpoint (s : State) (n : Int) : Option State := do
  let _ ← s.clog.fetch (logSize cfg) s.lc
  let s := s.updatePtree cfg n
  let nr ← s.clog.fetch (logSize cfg) n
  some { s with lc := n, clog := s.clog.set (logSize cfg) n { nr with sd := s.root }, cowb := [] }

/-- Put the saved blocks back, for the blocks in the list. -/
def restore (r : CkptRec) : List Nat → Mem → Option Mem
  | [], mem => some mem
  | i :: is, mem => do restore r is (Function.update mem i (← r.blocks i))

def rollback (s : State) : Option (State × Int) := do
  if s.lc < 0 || s.fetching then none
  else
    let r ← s.clog.fetch (logSize cfg) s.lc
    let mem ← restore r s.cowb s.mem
    some ({ s with mem, cowb := [],
                   clog := s.clog.set (logSize cfg) s.lc { clearRec r with sd := s.root } }, s.lc)

/-- `digest(n)`; `none` is `false`. -/
def digest (s : State) (n : Int) : Option Digest := do
  let r ← s.clog.fetch (logSize cfg) n
  if r.sd.isZero then none else some r.sd

/-- The checkpoint that `discard_checkpoint` takes where the last one is discarded. -/
def closeCkpt (s : State) (seqno le : Int) : Option State :=
  if s.lc < seqno ∧ s.lc < le ∧ 0 ≤ s.lc then do
    let s ← s.checkpoint cfg le
    some { s with lc := -1 }
  else some s

def discardCheckpoint (s : State) (seqno le : Int) : Option State := do
  let s ← s.closeCkpt cfg seqno le
  some { s with clog := s.clog.truncate (logSize cfg) clearRec seqno }

def startFetch (s : State) (le : Int) : Option State :=
  if s.fetching then some s
  else if 0 ≤ s.lc ∧ s.lc < le then ({ s with fetching := true } : State).checkpoint cfg le
  else some { s with fetching := true }

/-- A transfer that ends with checkpoint `c`, the memory `mem` and the stamps `lm`. -/
def endFetch (s : State) (c : Int) (mem : Mem) (lm : Nat → Int) : Option State := do
  if c < s.lc then none
  else
    let clog :=
      if s.clog.withinRange (logSize cfg) c then
        s.clog else s.clog.truncate (logSize cfg) clearRec (c - cfg.P.maxOut)
    let root := cfg.treeDigest mem lm
    let nr ← clog.fetch (logSize cfg) c
    some { s with mem, lm, root, lc := c,
                  clog := clog.set (logSize cfg) c { nr with sd := root }, cowb := [],
                  fetching := false }

end State

end TinyBFT
