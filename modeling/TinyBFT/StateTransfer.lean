import TinyBFT.CheckpointData
import TinyBFT.Lib.Prog

/-!
# State transfer and the log of checkpoint records (`State.cc:810-1660`)

A replica that lacks a checkpoint fetches it, partition by partition from the root down, and answers
the `Fetch` messages of others. On the way `State` looks up the records of many sequence numbers;
the static log has records for the multiples of the interval in its window, and one for the number
that `set_fetch_seqno` announced.

| here | there |
| --- | --- |
| `FPart`, `FetchState` | `FPart`, and the fields of `State`; `stalep` has its `high()` first |
| `FetchState.calls` | the calls of `CheckpointRecordLog::fetch`, with the log at each |
| `fetchRec`         | `CheckpointRecordLog::fetch` |
| `checkpoint`, `discard`, `digest` | `State.cc:734-750`, `:810-828` |
| `getMetaData`, `getData` | `State.cc:838-936` |
| `startFetch`, `sendFetch` | `State.cc:938-1055` |
| `handleFetch`      | `handle(Fetch)` (`State.cc:1057-1152`), of a message that was verified |
| `handleData`, `handleMetaData`, `handleMetaDataD` | `State.cc:1154-1510`, without state translation |
| `doneWithLevel`, `complete` | `done_with_level` (`State.cc:1512-1661`) |

`keep_ckpts` is never set, so its branches are left out, and so is the queue of partitions to check.
What a `Meta_data_d` message makes of the certificate (`cvalue`) is a parameter of its handler.
-/

namespace TinyBFT

/-- A stale partition. -/
structure FPart where
  index : Nat
  lu : Int
  lm : Int
  c : Int
  d : Digest
deriving DecidableEq, Repr

/-- The messages of state transfer, as far as `State` fills them in. -/
inductive TransferMsg
  | fetch (lu : Int) (level index : Nat) (rc : Int)
  | data (index : Nat) (lm : Int) (b : Block)
  | metaData (level index : Nat) (lu lm : Int) (d : Digest) (parts : List (Nat × Digest))
  | metaDataD (level index : Nat) (ls : Int) (digests : List (Int × Digest))
deriving DecidableEq, Repr

structure FetchState where
  s : CowState
  fetching : Bool
  flevel : Nat
  stalep : Nat → List FPart
  hasMine : Bool
  refetchLevel : Nat
  sent : List TransferMsg
  calls : List (CheckpointRecordLog × Int)

/-- A verified `Fetch`; `fresh`: its request identifier is new, `toMe`: this replica is the
designated replier. -/
structure FetchMsg where
  level : Nat
  index : Nat
  lu : Int
  rc : Int
  toMe : Bool
  fresh : Bool
deriving DecidableEq, Repr

/-- A verified `Meta_data`; `parts` is zero where it has no digest. `current`: it answers the last
request. -/
structure MetaDataMsg where
  level : Nat
  index : Nat
  lm : Int
  d : Digest
  parts : Nat → Digest
  current : Bool

/-- A verified `Meta_data_d`, and the value of the certificate that it completes. -/
structure MetaDataDMsg where
  level : Nat
  index : Nat
  ls : Int
  current : Bool
  value : Option (Int × Digest)
deriving DecidableEq, Repr

inductive FetchOp
  | write (d : Declare) (bytes : List (Nat × UInt8))
  | checkpoint (n : Int)
  | rollback
  | digest (n : Int)
  | discard (seqno le : Int)
  | startFetch (le rc : Int) (d : Digest)
  | startCheck (le : Int) (d : Digest)
  | sendFetch
  | fetch (m : FetchMsg) (ls : Int)
  | data (index : Nat) (lm : Int) (b : Block)
  | metaData (m : MetaDataMsg)
  | metaDataD (m : MetaDataDMsg)

variable (P : Params) (c : TreeCfg)

/-- What `CheckpointRecordLog::fetch` asserts of its argument. -/
def CheckpointRecordLog.Allowed (l : CheckpointRecordLog) (n : Int) : Prop :=
  l.withinRange P n = true ∧ (n % P.ckptInterval = 0 ∨ l.fetchSeqno = n)

instance (l : CheckpointRecordLog) (n : Int) : Decidable (l.Allowed P n) :=
  inferInstanceAs (Decidable (_ ∧ _))

/-- The children of a node that are over a block. -/
def TreeCfg.children (l i : Nat) : List Nat :=
  ((List.range (c.psize (l + 1))).map (i * c.psize (l + 1) + ·)).filter
    fun j => l + 2 < c.levels || j < c.nb

/-- A partition is replaced; the sum of its parent follows. -/
def Tree.putPart (T : Tree) (l i : Nat) (p : PartNode) : Tree :=
  if l = 0 then T.setNode l i p
  else (T.setNode l i p).setSum (l - 1) (i / c.psize l)
    (addMod c.modulus
      (subMod c.modulus (T.sums (l - 1) (i / c.psize l)) (T.pt l i).d.value) p.d.value)

/-- `check_digest`. -/
def Tree.checkDigest (T : Tree) (d : Digest) (m : MetaDataMsg) : Bool :=
  let sum := (c.children m.level m.index).foldl (fun sum j =>
    if (m.parts j).isZero then sum
    else addMod c.modulus (subMod c.modulus sum (T.pt (m.level + 1) j).d.value) (m.parts j).value)
      (T.sums m.level m.index)
  d == c.hash (sumBytes sum) m.index m.lm

namespace FetchState

open Prog

/-! ## Records -/

def fetchRec (n : Int) : Prog FetchState CheckpointRecord := do
  let t ← get
  modify fun t => { t with calls := (t.s.clog, n) :: t.calls }
  ofOption (t.s.clog.fetch P n)

def send (m : TransferMsg) : Prog FetchState Unit := modify fun t => { t with sent := m :: t.sent }

def checkpoint (n : Int) : Prog FetchState Unit := do
  let t ← get
  let cr ← fetchRec P t.s.lc
  let u ← ofOption (Tree.updateTree c (CowState.block c t.s.mem) n t.s.cowb (t.s.tree, cr))
  modify fun t =>
    { t with s := { t.s with clog := t.s.clog.set P t.s.lc u.2, tree := u.1, lc := n } }
  let nr ← fetchRec P n
  modify fun t => { t with s := { t.s with
    clog := t.s.clog.set P n { nr with sd := (u.1.pt 0 0).d }, cowb := fun _ => false
    taken := ⟨n, t.s.mem, u.1.pt⟩ :: t.s.taken } }

def digest (n : Int) : Prog FetchState (Option Digest) := do
  let t ← get
  if t.s.clog.withinRange P n then do
    let r ← fetchRec P n
    pure (if r.sd.isZero then none else some r.sd)
  else pure none

def discard (seqno le : Int) : Prog FetchState Unit := do
  let t ← get
  when (t.s.lc < seqno && t.s.lc < le && 0 ≤ t.s.lc) do
    checkpoint P c le
    modify fun t => { t with s := { t.s with lc := -1 } }
  let t ← get
  let clog ← ofOption (t.s.clog.truncate P seqno)
  modify fun t => { t with s := { t.s with clog } }

/-! ## Old partitions -/

/-- The loops of `get_data` and `get_meta_data`. -/
def search (k : PartKey) : Nat → Int → Prog FetchState Part
  | 0, _ => stop
  | fuel + 1, n => do
    let t ← get
    if t.s.lc < n then stop
    else do
      let r ← fetchRec P n
      match if r.sd.isZero then none else r.fetch k with
      | some p => pure p
      | none => search k fuel (n + P.ckptInterval)

def getMetaData (n : Int) (l i : Nat) : Prog FetchState PartNode := do
  let t ← get
  assert (t.s.clog.withinRange P n)
  if (t.s.tree.pt l i).lm ≤ n then pure (t.s.tree.pt l i)
  else do
    let p ← search P (l, i) (t.s.rounds P n) n
    pure ⟨p.lm, p.d⟩

def getData (n : Int) (i : Nat) : Prog FetchState Block := do
  let t ← get
  assert (t.s.clog.withinRange P n && decide (i < c.nb))
  if (t.s.tree.pt (c.levels - 1) i).lm ≤ n ∧ t.s.cowb i = false then
    pure (CowState.block c t.s.mem i)
  else do
    let p ← search P (c.levels - 1, i) (t.s.rounds P n) n
    pure p.data

/-- The sequence numbers of a loop `for (n = from; n <= lc; n += checkpoint_interval)`. -/
def seqnos (t : FetchState) (n : Int) : List Int :=
  (List.range (t.s.rounds P n)).map fun j : Nat => n + j * P.ckptInterval

/-! ## Fetching -/

/-- One digest of the own `Meta_data_d`. -/
def ownDigest (l i : Nat) (n : Int) : Prog FetchState (Option (Int × Digest)) := do
  let r ← fetchRec P n
  if r.sd.isZero then pure none
  else do
    let p ← getMetaData P n l i
    pure (some (n, p.d))

def sendFetch : Prog FetchState Unit := do
  let t ← get
  match t.stalep t.flevel with
  | [] => stop
  | p :: _ => do
    send (.fetch p.lu t.flevel p.index p.c)
    when (!t.hasMine) do
      let r ← fetchRec P t.s.clog.head
      when (!r.isCleared && p.c ≤ t.s.lc) do
        let _ ← collect (ownDigest P t.flevel p.index) (seqnos P t t.s.clog.head)
        modify fun t => { t with hasMine := true }

/-- The checkpoint for the memory as of `le`, which need not be a multiple of the interval. -/
def ownCheckpoint (le : Int) : Prog FetchState Unit := do
  let t ← get
  when (0 ≤ t.s.lc && t.s.lc < le) do
    modify fun t => { t with s := { t.s with clog := t.s.clog.setFetchSeqno P le } }
    checkpoint P c le

def startFetch (le rc : Int) (d : Digest) : Prog FetchState Unit := do
  let t ← get
  when (!t.fetching) do
    modify fun t => { t with fetching := true }
    ownCheckpoint P c le
    modify fun t => { t with
      hasMine := false, flevel := 0
      stalep := fun l => if l = 0 then
        [⟨0, if t.refetchLevel = c.levels then -1 else t.s.lc, (t.s.tree.pt 0 0).lm, rc, d⟩]
          else [] }
    sendFetch P

def startCheck (le : Int) (d : Digest) : Prog FetchState Unit := do
  modify fun t => { t with refetchLevel := c.levels }
  startFetch P c le (-1) d

/-! ## Answers to `Fetch` messages -/

/-- The record of `n` is in use. -/
def holds (n : Int) : Prog FetchState Bool := do
  let t ← get
  if t.s.clog.withinRange P n then do
    let r ← fetchRec P n
    pure (!r.isCleared)
  else pure false

/-- The checkpoint that the message is answered from, -1 for none. -/
def chosen (m : FetchMsg) : Prog FetchState Int := do
  if 0 ≤ m.rc ∧ m.toMe = true then do
    let held ← holds P m.rc
    let t ← get
    pure (if held then m.rc else if m.rc ≤ t.s.lc ∧
      (t.s.tree.pt m.level m.index).lm ≤ m.rc then t.s.lc else -1)
  else pure (-1)

def subPart (n : Int) (m : FetchMsg) (j : Nat) : Prog FetchState (Option (Nat × Digest)) := do
  let q ← getMetaData P n (m.level + 1) j
  pure (if m.lu < q.lm then some (j, q.d) else none)

def sendPart (m : FetchMsg) (n : Int) : Prog FetchState Unit :=
  if m.level + 1 = c.levels then do
    let p ← getMetaData P n m.level m.index
    let b ← getData P c n m.index
    send (.data m.index p.lm b)
  else do
    let p ← getMetaData P n m.level m.index
    let parts ← collect (subPart P n m) (c.children m.level m.index)
    send (.metaData m.level m.index n p.lm p.d parts)

def heldDigest (m : FetchMsg) (n : Int) : Prog FetchState (Option (Int × Digest)) := do
  let p ← getMetaData P n m.level m.index
  pure (some (n, p.d))

def sendDigests (m : FetchMsg) (ls : Int) : Prog FetchState Unit := do
  let r ← fetchRec P ls
  let t ← get
  let digests ←
    collect (heldDigest P m) (seqnos P t (if r.isCleared then ls + P.ckptInterval else ls))
  when (!digests.isEmpty) (send (.metaDataD m.level m.index ls digests))

def handleFetch (m : FetchMsg) (ls : Int) : Prog FetchState Unit :=
  when (m.fresh && (m.level + 1 < c.levels || m.index < c.nb)) do
    let n ← chosen P m
    let t ← get
    if 0 ≤ n then sendPart P c m n
    else
      when (m.rc < ls && m.lu ≤ ls && m.rc < (t.s.tree.pt m.level m.index).lm) (sendDigests P m ls)

/-! ## Fetched partitions -/

def setStale (l : Nat) (ps : List FPart) (t : FetchState) : FetchState :=
  { t with stalep := Function.update t.stalep l ps }

/-- The parent, first in its queue, gets the stamp of the partition. -/
def raiseParent (l i : Nat) (lm : Int) : Prog FetchState Unit := do
  let t ← get
  when (0 < l) do
    match t.stalep (l - 1) with
    | [] => stop
    | q :: qs => do
      assert (q.index == i / c.psize l)
      modify (setStale (l - 1) ({ q with lm := max q.lm lm } :: qs))

/-- The end of a transfer; afterwards `new_state` of the replica is called. -/
def complete (n : Int) (rest : List FPart) : Prog FetchState Unit := do
  modify fun t => { t with fetching := false }
  let t ← get
  assert (t.s.lc ≤ n)
  let clog ← ofOption (if t.s.clog.withinRange P n then some t.s.clog
    else t.s.clog.truncate P (n - P.maxOut))
  modify fun t => { t with s := { t.s with clog, lc := n } }
  let nr ← fetchRec P n
  modify fun t => { t with s := { t.s with
    clog := t.s.clog.set P n { nr with sd := (t.s.tree.pt 0 0).d }, cowb := fun _ => false } }
  modify fun t => { setStale 0 rest t with hasMine := false, refetchLevel := 0 }

/-- Called with every partition of the level done. -/
def doneWithLevel : Nat → Prog FetchState Unit
  | 0 => stop
  | l + 1 => do
    let t ← get
    assert (t.stalep (l + 1)).isEmpty
    match t.stalep l with
    | [] => stop
    | wp :: rest => do
      modify fun t => { setStale l ({ wp with lu := wp.c } :: rest) t with flevel := l }
      assert (wp.c != -1)
      if wp.lm ≤ wp.c then do
        modify fun t =>
          { t with s := { t.s with tree := t.s.tree.putPart c l wp.index ⟨wp.lm, wp.d⟩ } }
        raiseParent c l wp.index wp.lm
        if l = 0 then complete P wp.c rest
        else do
          modify (setStale l rest)
          if rest.isEmpty then doneWithLevel l
          else do
            modify fun t =>
              { t with refetchLevel := if l ≤ t.refetchLevel then c.levels else t.refetchLevel }
            sendFetch P
      else do
        modify fun t => { t with refetchLevel := min l t.refetchLevel }
        sendFetch P

/-- Go on with the next partition of the level, or with the level above. -/
def next (l : Nat) (rest : List FPart) : Prog FetchState Unit :=
  if rest.isEmpty then doneWithLevel P c l else sendFetch P

def handleData (i : Nat) (lm : Int) (b : Block) : Prog FetchState Unit := do
  let t ← get
  when (t.fetching && t.flevel + 1 == c.levels) do
    match t.stalep t.flevel with
    | [] => stop
    | wp :: rest =>
      when (i == wp.index) do
        if 0 ≤ wp.c ∧ wp.d = c.hash b i lm then do
          modify fun t => { t with s := { t.s with
            cowb := Function.update t.s.cowb i true, tree :=
              t.s.tree.putPart c t.flevel i ⟨lm, wp.d⟩
            mem := CowState.putBlock c t.s.mem i b } }
          raiseParent c t.flevel i lm
          modify fun u => { setStale t.flevel rest u with hasMine := false }
          next P c t.flevel rest
        else sendFetch P

/-- The children that are out of date. -/
def staleParts (T : Tree) (wp : FPart) (m : MetaDataMsg) : List FPart :=
  ((c.children m.level m.index).filter fun j => !(m.parts j).isZero &&
    (T.pt (m.level + 1) j).d != m.parts j).reverse.map fun j =>
    ⟨j, wp.lu, (T.pt (m.level + 1) j).lm, wp.c, m.parts j⟩

def handleMetaData (m : MetaDataMsg) : Prog FetchState Unit := do
  let t ← get
  when (t.fetching && t.flevel + 1 < c.levels && m.current && t.flevel == m.level) do
    match t.stalep t.flevel with
    | [] => stop
    | wp :: rest =>
      when (wp.index == m.index && 0 ≤ wp.c && m.d == wp.d && t.s.tree.checkDigest c wp.d m) do
        assert (t.stalep (t.flevel + 1)).isEmpty
        modify fun u => { setStale (t.flevel + 1) (staleParts
          c t.s.tree wp m) (setStale t.flevel ({ wp with lm := m.lm } :: rest) u) with
          flevel := t.flevel + 1, hasMine := false }
        next P c (t.flevel + 1) (staleParts c t.s.tree wp m)

def handleMetaDataD (m : MetaDataDMsg) : Prog FetchState Unit := do
  let t ← get
  when (t.fetching && m.current && t.flevel == m.level) do
    match t.stalep t.flevel with
    | [] => stop
    | wp :: rest =>
      when (wp.index == m.index && t.s.lc ≤ m.ls && wp.lu ≤ m.ls) do
        match m.value with
        | none => pure ()
        | some (cc, cd) => do
          modify fun u =>
            { setStale t.flevel ({ wp with c := cc, d := cd } :: rest) u with hasMine := false }
          assert (t.flevel + 1 != c.levels || wp.index < c.nb)
          if cd = (t.s.tree.pt t.flevel wp.index).d then
            if 0 < t.flevel then do
              modify (setStale t.flevel rest)
              when rest.isEmpty (doneWithLevel P c t.flevel)
            else do
              modify fun t => { t with flevel := 1 }
              doneWithLevel P c 1
          else sendFetch P

/-! ## Runs -/

/-- An operation that uses no record but the last one. -/
def onCow (f : CowState → Option CowState) : Prog FetchState Unit := do
  let t ← get
  let s ← ofOption (f t.s)
  modify fun t => { t with s }

def perform : FetchOp → Prog FetchState Unit
  | .write d bytes => onCow (CowState.write P c · d bytes)
  | .checkpoint n => checkpoint P c n
  | .rollback => do
    let t ← get
    assert (!t.fetching)
    onCow (CowState.rollback P c)
  | .digest n => do
    let _ ← digest P n
  | .discard seqno le => discard P c seqno le
  | .startFetch le rc d => startFetch P c le rc d
  | .startCheck le d => startCheck P c le d
  | .sendFetch => sendFetch P
  | .fetch m ls => handleFetch P c m ls
  | .data i lm b => handleData P c i lm b
  | .metaData m => handleMetaData P c m
  | .metaDataD m => handleMetaDataD P c m

def step (t : FetchState) (op : FetchOp) : Option FetchState :=
  match perform P c op t with
  | (some _, u) => some u
  | (none, _) => none

def start (mem : Nat → UInt8) : FetchState where
  s := CowState.start P c mem
  fetching := false
  flevel := 0
  stalep _ := []
  hasMine := false
  refetchLevel := 0
  sent := []
  calls := []

end FetchState

end TinyBFT
