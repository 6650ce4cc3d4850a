import TinyBFT.ViewInfo
import TinyBFT.State

/-!
# `Replica` (`Replica.h`, `Replica.cc`): the message handlers

| here | there |
| --- | --- |
| `ELog`            | `elog`: `Log<Certificate<Checkpoint>>` of size `2 * max_out`, or `CheckpointLog` in the static build |
| `Replica`         | its fields; `sent`, `committed`, `created` and `newViews` are the history |
| `Oracle`          | what a handler reads from outside the state: clocks, choices, keys, old memory |
| `sendPrePrepare`, `inWv` | `Replica.cc:488-561` |
| `handlePrePrepare`, `sendPrepare`, `sendCommit` | `Replica.cc:565-641` |
| `handlePrepare`, `handleCommit`, `handleCheckpoint` | `Replica.cc:643-793` |
| `handleStatus`    | `Replica.cc:803-968` |
| `handleViewChange`, `handleNewView`, `handleAck` | `Replica.cc:970-1064` |
| `sendViewChange`, `processNewView` | `Replica.cc:1066-1204` |
| `prepared`, `committed?` | `prepared`, `committed` (`Replica.cc:1206-1233`) |
| `executePrepared`, `executeCommitted` | `Replica.cc:1280-1466` |
| `newState`, `markStable` | `Replica.cc:1486-1675` |
| `sendNewKey`, `sendStatus`, `sendNull` | `Replica.cc:1706-1797`, `:2175-2202` |

Messages are values, as in the heap build. `verify` and the like are arguments of an event: whether
a message is authentic depends on keys that the model does not have. Replies to clients, read-only
requests and the timers' state are left out, as is recovery, which no build defines. The `NV_info`s
call back `process_new_view` and `send_status`; the functions below take the handler `h` of these
calls as an argument, and `handleCall` ties the knot: `process_new_view` marks its `NV_info`
complete first, so it is not entered again from inside.
-/

namespace TinyBFT

inductive ELog
  | heap (l : Log (Certificate Checkpoint))
  | static (l : CheckpointLog (Certificate Checkpoint))

namespace ELog

variable (cfg : Cfg)

def new (id : Nat) : ELog :=
  if cfg.staticLog then .static ⟨0, 0, fun _ => Certificate.new (cfg.env id) 0⟩
  else .heap ⟨0, fun _ => Certificate.new (cfg.env id) 0⟩

def withinRange : ELog → Int → Bool
  | .heap l, n => l.withinRange (cfg.P.maxOut * 2) n
  | .static l, n => l.withinRange cfg.P n

def fetch : ELog → Int → Option (Certificate Checkpoint)
  | .heap l, n => l.fetch (cfg.P.maxOut * 2) n
  | .static l, n => l.fetch cfg.P n

def set : ELog → Int → Certificate Checkpoint → ELog
  | .heap l, n, c => .heap (l.set (cfg.P.maxOut * 2) n c)
  | .static l, n, c => .static (l.set cfg.P n c)

def truncate : ELog → Int → Option ELog
  | .heap l, h => some (.heap (l.truncate (cfg.P.maxOut * 2) Certificate.clear h))
  | .static l, h => (l.truncate cfg.P Certificate.clear h).map .static

end ELog

/-- `re_authenticate(0, true)` of the own checkpoint: it is the correct value too. -/
def Certificate.markMineStable (cert : Certificate Checkpoint) : Certificate Checkpoint :=
  let stable (m : Checkpoint) : Checkpoint := { m with extra := true }
  { cert with
    mym := cert.mym.map stable
    vals := match cert.c with
      | some k =>
        cert.vals.modify k fun v => if cert.mym = some v.m then { v with m := stable v.m } else v
      | none => cert.vals }

/-- What a handler reads besides the state. -/
structure Oracle where
  /-- The last status message is old enough to send another one. -/
  statusDue : Bool
  /-- The last fetch message is. -/
  retransFetch : Bool
  /-- What `compute_non_det` returns, in order. -/
  choices : List (List UInt8)
  /-- The block of the next view-change message. -/
  word : Nat → BitVec 64
  entry : Nat → ReqInfo
  /-- Whether the checkpoint of a replica that `sset` holds still verifies. -/
  ckptAuth : Nat → Bool

structure Replica where
  v : Int
  limbo : Bool
  seqno : Int
  lastStable : Int
  lowBound : Int
  lastPrepared : Int
  lastExecuted : Int
  lastTentativeExecute : Int
  hasNvState : Bool
  maxRecN : Int
  rqueue : List (List UInt8)
  plog : Log PreparedCert
  clog : Log (Certificate Commit)
  elog : ELog
  sset : Nat → Option Checkpoint
  vi : ViewInfo
  state : State
  oracle : Oracle
  /-- Every message sent so far, latest first; `none` is `All_replicas`. -/
  sent : List (Option Nat × Msg)
  /-- The pre-prepares executed as committed, latest first. -/
  committed : List PrePrepareMsg
  /-- The pre-prepares created as primary, latest first, each with `last_stable` when it is
  logged. -/
  created : List (PrePrepareMsg × Int)
  /-- The new views processed as primary, latest first: `last_stable` at the call, and its `max`. -/
  newViews : List (Int × Int)
  /-- An assertion failed. -/
  halted : Bool

/-- The fields of a status message that the handler reads (`Status.h`). -/
structure StatusMsg where
  id : Nat
  view : Int
  lastStable : Int
  lastExecuted : Int
  hasNvInfo : Bool
  hasNvM : Bool
  isPrepared : Int → Bool
  isCommitted : Int → Bool
  hasVc : Nat → Bool
  /-- The missing pre-prepares: view, sequence number, and whether proofs are asked for. -/
  pps : List (Int × Int × Bool)

namespace Replica

open Prog (get modify assert ofOption when each eachUntil)

def Oracle.none : Oracle := ⟨false, false, [], fun _ => 0, fun _ => default, fun _ => false⟩

def new (cfg : Cfg) (id : Nat) (mem : Mem) : Replica where
  v := 0
  limbo := false
  seqno := 0
  lastStable := 0
  lowBound := 0
  lastPrepared := 0
  lastExecuted := 0
  lastTentativeExecute := 0
  hasNvState := true
  maxRecN := 0
  rqueue := []
  plog := ⟨1, fun _ => PreparedCert.new (cfg.env id)⟩
  clog := ⟨1, fun _ => Certificate.new (cfg.env id) 0⟩
  elog := ELog.new cfg id
  sset := fun _ => Option.none
  vi := ViewInfo.new cfg
  state := State.new cfg mem
  oracle := Oracle.none
  sent := []
  committed := []
  created := []
  newViews := []
  halted := false

variable (cfg : Cfg) (id : Nat)

def isPrimary (s : Replica) : Bool := cfg.primary s.v == id

def hasNewView (s : Replica) : Bool := s.v == 0 || (s.hasNvState && s.vi.hasNewView cfg s.v)

/-! ## Access to the logs -/

def emit (dest : Option Nat) (m : Msg) : Prog Replica Unit :=
  modify fun s => { s with sent := (dest, m) :: s.sent }

/-- Send the message, if there is one. -/
def emitOpt (dest : Option Nat) : Option Msg → Prog Replica Unit
  | some m => emit dest m
  | none => pure ()

def fetchP (n : Int) : Prog Replica PreparedCert := do
  let s ← get
  ofOption (s.plog.fetch cfg.P.maxOut n)

def setP (n : Int) (c : PreparedCert) : Prog Replica Unit :=
  modify fun s => { s with plog := s.plog.set cfg.P.maxOut n c }

def fetchC (n : Int) : Prog Replica (Certificate Commit) := do
  let s ← get
  ofOption (s.clog.fetch cfg.P.maxOut n)

def setC (n : Int) (c : Certificate Commit) : Prog Replica Unit :=
  modify fun s => { s with clog := s.clog.set cfg.P.maxOut n c }

def fetchE (n : Int) : Prog Replica (Certificate Checkpoint) := do
  let s ← get
  ofOption (s.elog.fetch cfg n)

def setE (n : Int) (c : Certificate Checkpoint) : Prog Replica Unit :=
  modify fun s => { s with elog := s.elog.set cfg n c }

/-- An operation of `state`. -/
def onState (op : State → Option State) : Prog Replica Unit := do
  let s ← get
  let st ← ofOption (op s.state)
  modify fun s => { s with state := st }

/-- Do what an operation of `vi` asked for. -/
def perform (h : NVCall → Prog Replica Unit) : List Out → Prog Replica Unit :=
  each fun
    | .send dest m => emit dest m
    | .call c => h c

/-- An operation of `vi`, and what it asks for; also where it stops. -/
def onVi {α : Type} (h : NVCall → Prog Replica Unit) (op : Prog ViewInfo α) : Prog Replica α :=
  fun s =>
  let r := op s.vi
  (do
    perform h r.2.outs
    ofOption r.1 : Prog Replica α) { s with vi := { r.2 with outs := [] } }

/-! ## Status -/

/-- The bits for `n`. -/
def statusEntry (n : Int) : Prog Replica Unit := do
  let pc ← fetchP cfg n
  let complete ← ofOption pc.isComplete
  when complete do
    let _ ← fetchC cfg n
    pure ()

def sendStatus : Prog Replica Unit := do
  let s ← get
  when s.oracle.statusDue do
    modify fun s => { s with oracle := { s.oracle with statusDue := false } }
    when (!(s.state.fetching && s.oracle.retransFetch)) do
      when (s.hasNewView cfg) do
        each (statusEntry cfg)
          (intRange (s.lastExecuted + 1) (toInt (s.lastStable + cfg.P.maxOut) + 1))
      emit none .status

/-! ## Pre-prepares of the primary -/

/-- `congestion_window` (`Replica.h:324`). -/
def congestionWindow : Int := 1

def noteCreated (pp : PrePrepareMsg) : Prog Replica Unit :=
  modify fun s => { s with created := (pp, s.lastStable) :: s.created }

/-- The next pre-prepare is built, sent and logged. -/
def createPrePrepare (batch : List UInt8) : Prog Replica Unit := do
  modify fun s => { s with seqno := s.seqno + 1 }
  let s ← get
  let pp : PrePrepareMsg := ⟨s.v, s.seqno, cfg.batchDigest batch, batch⟩
  noteCreated pp
  emit none (.prePrepare pp)
  let pc ← fetchP cfg s.seqno
  let pc ← ofOption (pc.addMinePrePrepare (cfg.env id) pp)
  setP cfg s.seqno pc

/-- `Pre_prepare::fill`: the batch, with the choices for it. -/
def takeBatch : Prog Replica (List UInt8) := do
  let s ← get
  let r := cfg.fill s.rqueue (s.oracle.choices.headD [])
  modify fun s =>
    { s with rqueue := r.2, oracle := { s.oracle with choices := s.oracle.choices.tail } }
  pure r.1

def sendPrePrepare : Prog Replica Unit := do
  let s ← get
  assert (s.isPrimary cfg id)
  when (!s.rqueue.isEmpty && decide (s.seqno + 1 ≤ s.lastExecuted + congestionWindow) &&
      decide (s.seqno + 1 ≤ cfg.P.maxOut + s.lastStable) && s.hasNewView cfg) do
    let batch ← takeBatch cfg
    createPrePrepare cfg id batch

/-- `send_null`, at the primary. -/
def sendNull : Prog Replica Unit := do
  let s ← get
  assert (s.isPrimary cfg id)
  let point :=
    cfg.P.maxOut + (s.maxRecN + cfg.P.ckptInterval - 1) / cfg.P.ckptInterval * cfg.P.ckptInterval
  when (s.maxRecN != 0 && decide (s.lastStable < point) && s.hasNewView cfg && s.rqueue.isEmpty &&
      decide (s.seqno ≤ s.lastExecuted) && decide (s.seqno + 1 ≤ cfg.P.maxOut + s.lastStable)) do
    createPrePrepare cfg id []

/-! ## Keys -/

def staleE (n : Int) : Prog Replica Unit :=
  when (n % cfg.P.ckptInterval == 0) do
    let c ← fetchE cfg n
    let c ← ofOption c.markStale
    setE cfg n c

def stalePC (n : Int) : Prog Replica Unit := do
  let pc ← fetchP cfg n
  let s ← get
  let pc ← ofOption (pc.markStale (s.isPrimary cfg id))
  setP cfg n pc
  let cc ← fetchC cfg n
  let cc ← ofOption cc.markStale
  setC cfg n cc

section Calls

variable (h : NVCall → Prog Replica Unit)

def sendNewKey : Prog Replica Unit := do
  emit none .newKey
  let s ← get
  let max := toInt (s.lastStable + cfg.P.maxOut)
  let min := toInt (s.lastStable + 1)
  each (staleE cfg) (intRange min (max + 1))
  let min := if s.lastStable < s.lastExecuted then toInt (s.lastExecuted + 1) else min
  each (stalePC cfg id) (intRange min (max + 1))
  onVi h (ViewInfo.markStale cfg id)

def updateMaxRec : Prog Replica Unit := do
  let s ← get
  when (decide (s.maxRecN < cfg.recPoint s.state.mem)) do
    modify fun s => { s with maxRecN := cfg.recPoint s.state.mem }
    sendNewKey cfg id h

/-! ## Stable checkpoints -/

/-- The counters and the logs below the stable checkpoint `n`, which a call of the `NV_info`s may
raise further. -/
def advance (n : Int) (haveState : Bool) : Prog Replica Unit := do
  modify fun s => { s with lastStable := n, lowBound := if s.lowBound < n then n else s.lowBound }
  let s ← get
  when (haveState && decide (s.lastExecuted < n)) do
    modify fun s => { s with lastExecuted := n, lastTentativeExecute := n,
                             rqueue := cfg.prune s.state.mem s.rqueue }
    updateMaxRec cfg id h
    modify fun s => { s with lastPrepared := if s.lastPrepared <
                               s.lastStable then s.lastStable else s.lastPrepared }
  modify fun s => { s with
    seqno := if s.seqno < s.lastStable then s.lastStable else s.seqno
    plog := s.plog.truncate cfg.P.maxOut PreparedCert.clear (s.lastStable + 1)
    clog := s.clog.truncate cfg.P.maxOut Certificate.clear (s.lastStable + 1) }
  let s ← get
  onVi h (ViewInfo.markStable cfg id s.lastStable)
  let s ← get
  let e ← ofOption (s.elog.truncate cfg s.lastStable)
  modify fun s => { s with elog := e }
  let s ← get
  onState fun st => st.discardCheckpoint cfg s.lastStable s.lastExecuted

/-- The own checkpoint message for the stable checkpoint `n`. -/
def ownStable (n : Int) : Prog Replica Unit := do
  let e ← fetchE cfg n
  match e.mine with
  | some _ => setE cfg n e.markMineStable
  | none => do
    let s ← get
    let r ← ofOption (e.addMine (cfg.env id) ⟨n, (s.state.digest cfg n).getD 0, id, true⟩)
    setE cfg n r.1.makeComplete

/-- Move the checkpoint of replica `i` from `sset` into the window; returns the new stable one. -/
def moveCkpt (newLs : Int) (i : Nat) : Prog Replica Int := do
  let s ← get
  match s.sset i with
  | none => pure newLs
  | some c =>
    if c.seqno < s.lastStable then do
      modify fun s => { s with sset := Function.update s.sset i none }
      pure newLs
    else if c.seqno ≤ s.lastStable + cfg.P.maxOut then do
      let cs ← fetchE cfg c.seqno
      modify fun s => { s with sset := Function.update s.sset i none }
      let r ← ofOption (cs.add (cfg.env id) c (s.oracle.ckptAuth i))
      setE cfg c.seqno r.1
      pure (if r.1.isComplete && newLs < c.seqno then c.seqno else newLs)
    else pure newLs

def moveCkpts : List Nat → Int → Prog Replica Int
  | [], newLs => pure newLs
  | i :: is, newLs => do
    let newLs ← moveCkpt cfg id newLs i
    moveCkpts is newLs

/-- `elog.within_range(n) && elog.fetch(n).mine()`. -/
def haveCkpt (n : Int) : Prog Replica Bool := do
  let s ← get
  if s.elog.withinRange cfg n then do
    let c ← fetchE cfg n
    pure c.mine.isSome
  else pure false

/-- `mark_stable`. Every call of itself has taken a checkpoint out of `sset`, which bounds their
number. -/
def markStable : Nat → Int → Bool → Prog Replica Unit
  | 0, _, _ => pure ()
  | fuel + 1, n, haveState => do
    let s ← get
    when (decide (s.lastStable < n)) do
      advance cfg id h n haveState
      let s ← get
      when haveState (ownStable cfg id s.lastStable)
      let s ← get
      let newLs ← moveCkpts cfg id (List.range cfg.n) s.lastStable
      let s ← get
      when (decide (s.lastStable < newLs)) do
        let have' ← haveCkpt cfg newLs
        markStable fuel newLs have'
      let s ← get
      when (s.isPrimary cfg id) (sendPrePrepare cfg id)

/-- The calls that `mark_stable` may make of itself. -/
def stableFuel : Nat := cfg.n + 1

/-! ## Execution -/

/-- `prepared(n)`. -/
def prepared (n : Int) : Prog Replica (Option PrePrepareMsg) := do
  let pc ← fetchP cfg n
  let complete ← ofOption pc.isComplete
  pure (if complete then pc.pp else none)

/-- `committed(n)`. -/
def committed? (n : Int) : Prog Replica (Option PrePrepareMsg) := do
  let pp ← prepared cfg n
  let cc ← fetchC cfg n
  pure (if cc.isComplete then pp else none)

/-- A recovery request in the batch that was just executed. -/
def recover (other : Bool) : Prog Replica Unit := do
  when other (sendNewKey cfg id h)
  modify fun s => { s with maxRecN := s.lastTentativeExecute }

/-- Execute the batch of `pp`, which is the one of `last_executed + 1`. -/
def execute (pp : PrePrepareMsg) : Prog Replica Unit := do
  let s ← get
  assert (pp.seqno == s.lastExecuted + 1)
  let st ← ofOption (State.writeAll cfg (cfg.exec pp.batch s.state.mem) s.state)
  modify fun s => { s with lastTentativeExecute := s.lastExecuted + 1, state := st }
  each (recover cfg id h) (cfg.recoveries pp.batch s.state.mem)
  when ((s.lastExecuted + 1) % cfg.P.ckptInterval == 0) (onState
    fun st => st.checkpoint cfg (s.lastExecuted + 1))

def executePrepared : Prog Replica Unit := do
  let s ← get
  when (decide (s.lastTentativeExecute < s.lastExecuted + 1) &&
    decide (s.lastExecuted < s.lastStable + cfg.P.maxOut) &&
      !s.state.fetching && s.hasNewView cfg) do
    let pp ← prepared cfg (s.lastExecuted + 1)
    match pp with
    | none => pure ()
    | some pp => when (pp.view == s.v) (execute cfg id h pp)

/-- The checkpoint message for `last_executed`. -/
def sendCheckpoint : Prog Replica Unit := do
  let s ← get
  let e : Checkpoint := ⟨s.lastExecuted, (s.state.digest cfg s.lastExecuted).getD 0, id, false⟩
  let cc ← fetchE cfg s.lastExecuted
  let r ← ofOption (cc.addMine (cfg.env id) e)
  setE cfg s.lastExecuted r.1
  when r.1.isComplete (markStable cfg id h (stableFuel cfg) s.lastExecuted true)
  emit none (.checkpoint e)

/-- Execute `pp` as committed. -/
def commitNext (pp : PrePrepareMsg) : Prog Replica Unit := do
  executePrepared cfg id h
  modify fun s => { s with lastExecuted := s.lastExecuted + 1, committed := pp :: s.committed }
  let s ← get
  assert (pp.seqno == s.lastExecuted)
  modify fun s => { s with rqueue := cfg.dequeue pp.batch s.rqueue }
  when (s.lastExecuted % cfg.P.ckptInterval == 0) (sendCheckpoint cfg id h)

/-- The loop of `execute_committed`: `true` where the function returns from inside. -/
def commitLoop : Nat → Prog Replica Bool
  | 0 => pure true
  | fuel + 1 => do
    let s ← get
    if s.lastStable + cfg.P.maxOut ≤ s.lastExecuted ∨ s.lastExecuted < s.lastStable then pure true
    else do
      let pp ← committed? cfg (s.lastExecuted + 1)
      match pp with
      | none => pure false
      | some pp =>
        if pp.view = s.v then do
          commitNext cfg id h pp
          commitLoop fuel
        else pure false

/-- `execute_committed`. One call executes at most the window. -/
def executeCommitted : Prog Replica Unit := do
  let s ← get
  when (!s.state.fetching && s.hasNewView cfg) do
    let returned ← commitLoop cfg id h (cfg.P.maxOut + 1)
    let s ← get
    when (!returned && !s.rqueue.isEmpty && s.isPrimary cfg id) (sendPrePrepare cfg id)

/-! ## The normal case -/

/-- `in_wv`; `verify` is what `m->verify()` returns. -/
def inWv (seqno view : Int) (verify : Bool) : Prog Replica Bool := do
  let s ← get
  let offset := seqno - s.lastStable
  if 0 < offset ∧ offset ≤ cfg.P.maxOut ∧ view = s.v then pure true
  else do
    when ((decide (s.v < view) || decide (cfg.P.maxOut < offset)) && verify) (sendStatus cfg)
    pure false

/-- `send_prepare` for the certificate of `n`. The prepare is sent before `add_mine` is asked. -/
def sendPrepare (n : Int) : Prog Replica Unit := do
  let pc ← fetchP cfg n
  match pc.myPrepare, pc.pp with
  | none, some pp => do
    let s ← get
    let p : Prepare := ⟨s.v, pp.seqno, pp.digest, id, false⟩
    emit none (.prepare p)
    let r ← ofOption (pc.addMine (cfg.env id) p)
    setP cfg n r.1
  | _, _ => pure ()

def sendCommit (n : Int) : Prog Replica Unit := do
  let s ← get
  when (n == s.lastExecuted + 1) (executePrepared cfg id h)
  let s ← get
  let c : Commit := ⟨s.v, n, id⟩
  emit none (.commit c)
  modify fun s => { s with lastPrepared := if s.lastPrepared < n then n else s.lastPrepared }
  let cs ← fetchC cfg n
  let r ← ofOption (cs.addMine (cfg.env id) c)
  setC cfg n r.1
  when (r.2 && r.1.isComplete) (executeCommitted cfg id h)

/-- `if (pc.is_complete()) send_commit(n)`. -/
def commitIfComplete (n : Int) : Prog Replica Unit := do
  let pc ← fetchP cfg n
  let complete ← ofOption pc.isComplete
  when complete (sendCommit cfg id h n)

/-- A pre-prepare that is in the window, of the current view and above `low_bound`. -/
def acceptPrePrepare (m : PrePrepareMsg) (nrc reqsOk : Bool) : Prog Replica Unit := do
  let pc ← fetchP cfg m.seqno
  let r ← ofOption (pc.addPrePrepare (cfg.env id) m nrc reqsOk)
  setP cfg m.seqno r.1
  when r.2 do
    sendPrepare cfg id m.seqno
    commitIfComplete cfg id h m.seqno

/-- `digestOk` is what `check_digest` returns. -/
def handlePrePrepare (m : PrePrepareMsg) (nrc reqsOk digestOk : Bool) : Prog Replica Unit := do
  let w ← inWv cfg m.seqno m.view (nrc && reqsOk)
  let s ← get
  if w && decide (s.lowBound < m.seqno) && s.hasNewView cfg then
    acceptPrePrepare cfg id h m nrc reqsOk
  else when (!s.hasNewView cfg) do
    onVi h (ViewInfo.onNv cfg id (cfg.primary s.vi.v) fun V => NVInfo.addMissing V m digestOk)

/-- A prepare that is in the window, of the current view, above `low_bound` and not the
primary's. -/
def acceptPrepare (m : Prepare) (verify : Bool) : Prog Replica Unit := do
  let pc ← fetchP cfg m.seqno
  let r ← ofOption (pc.add (cfg.env id) m verify)
  setP cfg m.seqno r.1
  when r.2 (commitIfComplete cfg id h m.seqno)

def handlePrepare (m : Prepare) (verify : Bool) : Prog Replica Unit := do
  let w ← inWv cfg m.seqno m.view verify
  let s ← get
  if w && decide (s.lowBound < m.seqno) && cfg.primary s.v != m.id && s.hasNewView cfg then
    acceptPrepare cfg id h m verify
  else when (m.isProof && !s.hasNewView cfg) do
    onVi h (ViewInfo.onNv cfg id (cfg.primary s.vi.v) fun V => NVInfo.addMissingPrepare V m)

def acceptCommit (m : Commit) (verify : Bool) : Prog Replica Unit := do
  let cs ← fetchC cfg m.seqno
  let r ← ofOption (cs.add (cfg.env id) m verify)
  setC cfg m.seqno r.1
  when (r.2 && r.1.isComplete) (executeCommitted cfg id h)

def handleCommit (m : Commit) (verify : Bool) : Prog Replica Unit := do
  let w ← inWv cfg m.seqno m.view verify
  let s ← get
  when (w && decide (s.lowBound < m.seqno)) (acceptCommit cfg id h m verify)

/-! ## Checkpoints -/

/-- Rollback to the last checkpoint, where there is tentative work. -/
def rollback : Prog Replica Unit := do
  let s ← get
  when (decide (s.lastExecuted < s.lastTentativeExecute)) do
    assert (!s.state.fetching)
    let r ← ofOption (s.state.rollback cfg)
    modify fun s => { s with state := r.1, lastTentativeExecute := r.2, lastExecuted := r.2 }

def acceptCheckpoint (m : Checkpoint) (verify : Bool) : Prog Replica Unit := do
  let cs ← fetchE cfg m.seqno
  let r ← ofOption (cs.add (cfg.env id) m verify)
  setE cfg m.seqno r.1
  when (r.2 && r.1.mine.isSome && r.1.isComplete)
    (markStable cfg id h (stableFuel cfg) m.seqno true)

/-- The number of checkpoints in `sset`. -/
def ssetSize (s : Replica) : Nat := (List.range cfg.n).countP fun i => (s.sset i).isSome

/-- A verified checkpoint message above the window, or one that is late. -/
def checkpointAbove (m : Checkpoint) : Prog Replica Unit := do
  let s ← get
  if !m.stable then sendStatus cfg
  else when ((s.sset m.id).all fun c => c.seqno < m.seqno) do
    modify fun s => { s with sset := Function.update s.sset m.id (some m) }
    let s ← get
    when (decide (cfg.f < s.ssetSize cfg)) do
      rollback cfg
      let s ← get
      onState fun st => st.startFetch cfg s.lastExecuted

/-- A stable checkpoint above `last_executed`; `old` says that the last own commit is older than 200
ms. -/
def isLate (s : Replica) (m : Checkpoint) (old : Bool) : Bool :=
  m.stable && decide (s.lastExecuted < m.seqno) &&
    match s.clog.fetch cfg.P.maxOut s.lastExecuted with
    | some cc => cc.mine.isNone || old
    | none => true

def handleCheckpoint (m : Checkpoint) (verify old : Bool) : Prog Replica Unit := do
  let s ← get
  when (decide (s.lastStable < m.seqno)) do
    if m.seqno ≤ s.lastStable + cfg.P.maxOut && !s.isLate cfg m old then
      acceptCheckpoint cfg id h m verify
    else when verify (checkpointAbove cfg m)

/-! ## View changes -/

/-- The digest that the replica voted for in the certificate: of its prepare, or of its
pre-prepare. -/
def voted (pc : PreparedCert) : Option Digest :=
  match pc.myPrepare with
  | some p => some p.digest
  | none => pc.myPrePrepare.map (·.digest)

/-- What `vi` remembers of the certificate for `i`. -/
def noteCert (i : Int) (pc : PreparedCert) (complete : Bool) : Prog ViewInfo Unit :=
  match if complete then pc.pp else none, voted pc with
  | some pp, _ => ViewInfo.addComplete cfg pp
  | none, some d => ViewInfo.addIncomplete cfg i d
  | none, none => pure ()

/-- The certificate for `i` is noted and cleared. -/
def collect (i : Int) : Prog Replica Unit := do
  let pc ← fetchP cfg i
  let cc ← fetchC cfg i
  let complete ← ofOption pc.isComplete
  onVi h (noteCert cfg i pc complete)
  setP cfg i pc.clear
  setC cfg i cc.clear

def sendViewChange : Prog Replica Unit := do
  modify fun s => { s with v := s.v + 1, limbo := true }
  rollback cfg
  modify fun s => { s with lastPrepared := s.lastExecuted }
  let s ← get
  each (collect cfg h) (intRange (s.lastStable + 1) (s.lastStable + cfg.P.maxOut + 1))
  let s ← get
  onVi h (ViewInfo.viewChange cfg id s.v s.lastExecuted
    s.oracle.word s.oracle.entry (s.state.digest cfg))

/-- The pre-prepare, and a backup's prepare, for sequence number `i` of the new view. -/
def newViewRequest (i : Int) : Prog Replica Unit := do
  let s ← get
  let (pp, d) ← onVi h (ViewInfo.onNv cfg id (cfg.primary s.vi.v) fun V => NVInfo.fetchRequest V i)
  let pc ← fetchP cfg i
  let s ← get
  if s.isPrimary cfg id then do
    noteCreated pp
    let pc ← ofOption (pc.addMinePrePrepare (cfg.env id) pp)
    setP cfg i pc
  else do
    let p : Prepare := ⟨s.v, i, d, id, false⟩
    let r ← ofOption (pc.addMine (cfg.env id) p)
    modify fun s => { s with plog := s.plog.set cfg.P.maxOut i r.1,
                             sent := (none, .prepare p) :: s.sent }
    assert (pp.digest == p.digest)
    let pc ← ofOption (r.1.addOld pp)
    setP cfg i pc

def processNewView (min max ms : Int) : Prog Replica Unit := do
  assert (decide (0 ≤ ms ∧ ms ≤ min))
  let s ← get
  when (s.isPrimary cfg id) do
    modify fun s => { s with newViews := (s.lastStable, max) :: s.newViews }
    let nv ← ofOption (s.vi.lastNvs id).nv
    emit none (.newView nv)
  let min := if min < s.lastStable then s.lastStable else min
  modify fun s => { s with limbo := false, seqno := max - 1, lowBound := min }
  when (decide (s.lastStable < ms))
    (markStable cfg id h (stableFuel cfg) ms (decide (ms ≤ s.lastExecuted)))
  let s ← get
  assert (decide (s.lastStable ≤ min ∧ max - s.lastStable - 1 ≤ cfg.P.maxOut))
  each (newViewRequest cfg id h) (intRange (min + 1) max)
  let s ← get
  when (s.isPrimary cfg id) (sendPrePrepare cfg id)
  let s ← get
  if s.lastExecuted < min then do
    modify fun s => { s with hasNvState := false }
    onState fun st => st.startFetch cfg s.lastExecuted
  else modify fun s => { s with hasNvState := true }

end Calls

/-- The calls of the `NV_info`s, `depth` deep. -/
def handleCall : Nat → NVCall → Prog Replica Unit
  | 0, _ => Prog.stop
  | _ + 1, .sendStatus => sendStatus cfg
  | depth + 1, .processNewView min _ max ms => processNewView cfg id (handleCall depth) min max ms

/-- New views are not processed inside one another. -/
def calls : NVCall → Prog Replica Unit := handleCall cfg id 3

/-- `v = maxv - 1; send_view_change()`. -/
def joinView (maxv : Int) : Prog Replica Unit := do
  modify fun s => { s with v := maxv - 1 }
  sendViewChange cfg id (calls cfg id)

def handleViewChange (m : ViewChange) (verified digestOk : Bool) : Prog Replica Unit := do
  let s ← get
  when (m.id == cfg.primary s.v && decide (s.v < m.v) &&
    verified) (sendViewChange cfg id (calls cfg id))
  let modified ← onVi (calls cfg id) (ViewInfo.addViewChange cfg id m verified digestOk)
  when modified do
    let s ← get
    let maxv := s.vi.maxView cfg
    if s.v < maxv then joinView cfg id maxv
    else when (s.limbo && !s.isPrimary cfg id) do
      let maxv := s.vi.maxMajView cfg
      assert (decide (maxv ≤ s.v))
      when (maxv == s.v) (modify fun s => { s with limbo := false })

/-! ## The end of a state transfer -/

/-- The checkpoint message for the fetched state `c`. -/
def sendFetched (c : Int) : Prog Replica Unit := do
  let s ← get
  let ck : Checkpoint := ⟨c, (s.state.digest cfg c).getD 0, id, false⟩
  let cc ← fetchE cfg c
  let r ← ofOption (cc.addMine (cfg.env id) ck)
  setE cfg c r.1
  emit none (.checkpoint ck)

/-- `c > last_executed`. -/
def adoptState (c : Int) : Prog Replica Unit := do
  modify fun s => { s with lastExecuted := c, lastTentativeExecute := c,
                           rqueue := cfg.prune s.state.mem s.rqueue }
  updateMaxRec cfg id (calls cfg id)
  modify fun s => { s with lastPrepared := if s.lastPrepared < c then c else s.lastPrepared }
  let s ← get
  when (decide (s.lastStable + cfg.P.maxOut < c)) do
    let have' ← haveCkpt cfg (c - cfg.P.maxOut)
    markStable cfg id (calls cfg id) (stableFuel cfg) (c - cfg.P.maxOut) have'
  sendFetched cfg id c

/-- The stable checkpoints in `sset` from `c` on. -/
def stableFrom (s : Replica) (c : Int) : Nat :=
  (List.range cfg.n).countP fun i => (s.sset i).any fun ck => decide (c ≤ ck.seqno)

def newState (c : Int) : Prog Replica Unit := do
  modify fun s =>
    { s with hasNvState := s.hasNvState || (s.vi.hasNewView cfg s.v && decide (s.lowBound ≤ c)) }
  let s ← get
  when (decide (s.lastExecuted < c)) (adoptState cfg id c)
  let s ← get
  assert ((List.range cfg.n).all fun i => (s.sset i).all
    fun ck => ck.stable || decide (ck.seqno < c))
  when (decide (cfg.f < s.stableFrom cfg c))
    (markStable cfg id (calls cfg id) (stableFuel cfg) c true)
  modify fun s => { s with seqno := if s.seqno < c then c else s.seqno }
  executeCommitted cfg id (calls cfg id)
  let s ← get
  when (!s.rqueue.isEmpty && s.isPrimary cfg id) (sendPrePrepare cfg id)

/-- A state transfer in progress ends with checkpoint `c`. -/
def handleFetched (c : Int) (mem : Mem) (lm : Nat → Int) : Prog Replica Unit := do
  let s ← get
  when s.state.fetching do
    onState fun st => st.endFetch cfg c mem lm
    newState cfg id c

/-! ## Status messages -/

/-- The own checkpoint for `n`, where it is one. -/
def retransmitCkpt (dest : Nat) (n : Int) : Prog Replica Unit :=
  when (n % cfg.P.ckptInterval == 0) do
    let e ← fetchE cfg n
    match e.mine with
    | none => pure ()
    | some c => do
      emit (some dest) (.checkpoint c)
      let s ← get
      assert (n == s.lastStable || !c.stable)

/-- The own pre-prepare or prepare for `n`. -/
def retransmitVote (dest : Nat) (n : Int) : Prog Replica Unit := do
  let pc ← fetchP cfg n
  let s ← get
  emitOpt (some dest) (if s.isPrimary cfg id then pc.myPrePrepare.map .prePrepare
    else pc.myPrepare.map .prepare)

/-- The own messages for `n` that the sender of `m` misses. -/
def retransmitNormal (m : StatusMsg) (n : Int) : Prog Replica Unit :=
  when (!m.isCommitted n) do
    let cc ← fetchC cfg n
    emitOpt (some m.id) (cc.mine.map .commit)
    when (!m.isPrepared n) (retransmitVote cfg id m.id n)

/-- The pre-prepare for `n` that the sender of `m` asks for: the primary gets the old one, a backup
the new one. -/
def findPps (m : StatusMsg) (v n : Int) : Prog Replica (Option PrePrepareMsg) := do
  let s ← get
  if m.id = cfg.primary s.v then ofOption (s.vi.prePrepareSince cfg n v)
  else if s.isPrimary cfg id && s.plog.withinRange cfg.P.maxOut n then do
    let pc ← fetchP cfg n
    pure pc.pp
  else pure none

/-- A missing pre-prepare, and the proofs for it. -/
def retransmitPps (m : StatusMsg) (pp : Int × Int × Bool) : Prog Replica Unit := do
  let found ← findPps cfg id m pp.1 pp.2.1
  emitOpt (some m.id) (found.map .prePrepare)
  when pp.2.2 (onVi (calls cfg id) (ViewInfo.sendProofs cfg id pp.2.1 pp.1 m.id))

/-- The acknowledgements that the sender of `m` misses. -/
def retransmitAck (m : StatusMsg) (i : Nat) : Prog Replica Unit := do
  let s ← get
  match s.vi.myVacks i with
  | some vca => when (i != m.id && !m.hasVc i) (emit (some m.id) (.ack vca))
  | none => pure ()

/-- The sender has no new view for the current view. -/
def retransmitView (m : StatusMsg) : Prog Replica Unit := do
  let s ← get
  when (!m.hasVc id) do
    let vc ← ofOption (s.vi.myViewChange cfg id)
    emit (some m.id) (.viewChange vc)
  let own := s.isPrimary cfg id && s.vi.hasNewView cfg s.v
  if !m.hasNvM then
    when own (emitOpt (some m.id) ((s.vi.lastNvs id).nv.map .newView))
  else do
    when (!own) (each (retransmitAck m) (List.range cfg.n))
    each (retransmitPps cfg id m) m.pps

/-- A verified status message that is not too old. -/
def retransmitAll (m : StatusMsg) : Prog Replica Unit := do
  let s ← get
  let max :=
    toInt ((if s.lastStable < m.lastStable then s.lastStable else m.lastStable) + cfg.P.maxOut)
  let min := toInt (if m.lastStable + 1 < s.lastStable then s.lastStable else m.lastStable + 1)
  each (retransmitCkpt cfg m.id) (intRange min (max + 1))
  if m.view < s.v then
    emitOpt (some m.id) ((s.vi.myViewChange cfg id).map .viewChange)
  else when (m.view == s.v) do
    if m.hasNvInfo then
      let min := toInt (if m.lastExecuted + 1 < s.lastStable + 1 then s.lastStable + 1
        else m.lastExecuted + 1)
      each (retransmitNormal cfg id m) (intRange min (max + 1))
    else retransmitView cfg id m

def handleStatus (m : StatusMsg) (verify : Bool) : Prog Replica Unit := do
  let s ← get
  when (m.id != id) do
    if verify then
      if m.lastStable + cfg.P.maxOut < s.lastStable then do
        let e ← fetchE cfg s.lastStable
        let c ← ofOption e.mine
        assert c.stable
        emit (some m.id) (.checkpoint c)
      else retransmitAll cfg id m
    else emit (some m.id) .newKey

def handleNewView (m : NewView) (verified : Bool) : Prog Replica Unit :=
  onVi (calls cfg id) (ViewInfo.addNewView cfg id m verified)

def handleAck (m : ViewChangeAck) (verified : Bool) : Prog Replica Unit :=
  onVi (calls cfg id) (ViewInfo.addAck cfg id m verified)

/-! ## Runs -/

/-- A message that arrives, with what its verification returns, or a timer. -/
inductive Event
  | prePrepare (m : PrePrepareMsg) (nrc reqsOk digestOk : Bool)
  | prepare (m : Prepare) (verify : Bool)
  | commit (m : Commit) (verify : Bool)
  | checkpoint (m : Checkpoint) (verify old : Bool)
  | status (m : StatusMsg) (verify : Bool)
  | viewChange (m : ViewChange) (verified digestOk : Bool)
  | newView (m : NewView) (verified : Bool)
  | ack (m : ViewChangeAck) (verified : Bool)
  /-- A client request enters the queue. -/
  | request (r : List UInt8)
  | fetched (c : Int) (mem : Mem) (lm : Nat → Int)
  | viewTimer
  | statusTimer
  | nullTimer
  /-- `send_new_key`, by the authentication timer. -/
  | newKey

/-- `vtimer_handler` (`Replica.cc:2219-2225`): no view change while fetching state. -/
def handleViewTimer : Prog Replica Unit := do
  let s ← get
  when (!s.state.fetching) (sendViewChange cfg id (calls cfg id))

/-- A request that `handle(Request*)` puts into the queue (`Replica.cc:449-472`). -/
def handleRequest (r : List UInt8) : Prog Replica Unit := do
  modify fun s => { s with rqueue := s.rqueue ++ [r] }
  let s ← get
  when (s.isPrimary cfg id) (sendPrePrepare cfg id)

/-- The handler of an event. A principal never verifies its own authenticator (`Node.cc:351`). -/
def handle : Event → Prog Replica Unit
  | .prePrepare m nrc reqsOk digestOk =>
    handlePrePrepare cfg id (calls cfg id) m (nrc && cfg.primary m.view != id) reqsOk digestOk
  | .prepare m verify => handlePrepare cfg id (calls cfg id) m (verify && m.id != id)
  | .commit m verify => handleCommit cfg id (calls cfg id) m (verify && m.id != id)
  | .checkpoint m verify old =>
    handleCheckpoint cfg id (calls cfg id) m (verify && m.id != id && decide (m.id < cfg.n)) old
  | .status m verify => handleStatus cfg id m verify
  | .viewChange m verified digestOk =>
    handleViewChange cfg id m (verified && digestOk && m.wellFormed cfg && m.id != id) digestOk
  | .newView m verified => handleNewView cfg id m (verified && m.wellFormed cfg && m.id cfg != id)
  | .ack m verified => handleAck cfg id m (verified && m.wellFormed cfg && m.id != id)
  | .request r => handleRequest cfg id r
  | .fetched c mem lm => handleFetched cfg id c mem lm
  | .viewTimer => handleViewTimer cfg id
  | .statusTimer => sendStatus cfg
  | .nullTimer => do
    let s ← get
    when (s.isPrimary cfg id) (sendNull cfg id)
  | .newKey => sendNewKey cfg id (calls cfg id)

/-- One event. A replica that has stopped does nothing any more. -/
def step (s : Replica) (e : Oracle × Event) : Replica :=
  if s.halted then s
  else
    match handle cfg id e.2 { s with oracle := e.1 } with
    | (some _, t) => t
    | (none, t) => { t with halted := true }

/-- The state after a sequence of events. -/
def run (s : Replica) (es : List (Oracle × Event)) : Replica := es.foldl (step cfg id) s

end Replica

end TinyBFT
