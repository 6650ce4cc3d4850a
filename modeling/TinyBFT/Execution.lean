import TinyBFT.Messages
import TinyBFT.Lib.Prog
import Mathlib.Logic.Function.Basic
import Mathlib.Tactic.Set

/-!
# Execution and replies (`Rep_info.h`, `Rep_info.cc`, `Replica.cc:433-488`, `:1280-1466`)

The last reply to each principal is part of the replicated memory: a message header and a buffer,
which `exec_command` fills in. `send_reply` stamps the message for the occasion and takes the stamps
out again.

| here | there |
| --- | --- |
| `App`            | what the service and the keys decide (`exec_command`, digests, MACs), and the parameters |
| `ReplySlot`      | `Reply_rep` and the bytes that follow it, in the reply area |
| `RepMem`         | the replicated memory; `applied` is the history of `exec_command` that led to it |
| `Rinfo`          | `Rep_info::Rinfo`; `none` is `zeroTime()` |
| `newReply`, `endReply`, `sendReply` | `Rep_info.cc:70-138`; `transmit` is what `send_reply` does after its checks |
| `execRequest`, `finish` | the body of the loop of `execute_prepared` (`Replica.cc:1299-1366`) |
| `executePrepared` | `execute_prepared`, for the pre-prepare that `prepared(last_executed + 1)` returned |
| `executeCommitted` | one round of the loop of `execute_committed`, up to the checkpoint message |
| `ExecEvent.request` | `handle(Request)` for a verified request that is not read-only: the part that uses the reply area |
| `ExecEvent.rollback`, `.checkpoint` | `state.rollback()` and what follows it; `state.start_fetch(last_executed)` |

`calls` records the calls of `new_reply` and `end_reply` and every use of a reply (`send_reply`,
`digest`, `reply`) with the slot that it found. The certificate of a sequence number holds one
pre-prepare, so the batch that is committed is the one executed tentatively, if there is one
(`pending`). The state of the request queue and the view-change timer is left out: nothing here
reads it. Checkpoints are whole copies of the memory.
-/

namespace TinyBFT

/-- A request of a batch, as `Requests_iter` returns it. -/
structure ExecRequest where
  cid : Nat
  rid : Nat
  isRecovery : Bool
  replier : Int
  command : List UInt8
deriving DecidableEq, Repr

structure Batch where
  seqno : Int
  requests : List ExecRequest
  choices : List UInt8
deriving DecidableEq, Repr

structure ReplySlot where
  /-- `Message_rep::size`. -/
  size : Nat
  extra : Nat
  v : Int
  rid : Nat
  digest : Digest
  replica : Nat
  replySize : Int
  body : Nat → UInt8

namespace ReplySlot

/-- The slot of a principal in new memory (`Rep_info.cc:39-45`). -/
def new : ReplySlot := ⟨0, 0, 0, 0, 0, 0, -1, fun _ => 0⟩

/-- What `send_reply` asserts. -/
def Built (r : ReplySlot) : Prop := r.replySize ≠ -1 ∧ r.extra = 0 ∧ r.v = 0 ∧ r.replica = 0

instance (r : ReplySlot) : Decidable r.Built := inferInstanceAs (Decidable (_ ∧ _ ∧ _ ∧ _))

/-- `bzero` of `len` bytes of the buffer. -/
def zero (r : ReplySlot) (i len : Nat) : ReplySlot :=
  { r with body := fun k => if i ≤ k ∧ k < i + len then 0 else r.body k }

/-- The bytes of `src` are copied to the buffer at `i`. -/
def write (r : ReplySlot) (i : Nat) (src : List UInt8) : ReplySlot :=
  { r with body := fun k => if i ≤ k ∧ k < i + src.length then src.getD (k - i) 0 else r.body k }

end ReplySlot

/-- `MAC_size`. -/
def macSize : Nat := 32

/-- The application and the keys. -/
structure App (σ : Type) where
  /-- The state of the service in new memory. -/
  init : σ
  /-- `exec_command(in, out, non_det, cid, false)`: the new state, the buffer and `outb.size`. -/
  exec : σ → List UInt8 → List UInt8 → Nat → (Nat → UInt8) → σ × (Nat → UInt8) × Nat
  digest : List UInt8 → Digest
  /-- `gen_mac_out`, for a principal and the message. -/
  mac : Nat → ReplySlot → List UInt8
  mac_length : ∀ pid r, (mac pid r).length = macSize
  numReplicas : Nat
  nps : Nat
  ckptInterval : Nat

/-- The replicated memory. -/
structure RepMem (σ : Type) where
  app : σ
  slots : Nat → ReplySlot
  /-- Client and request id of every `exec_command` that led to this state, latest first. -/
  applied : List (Nat × Nat)

def RepMem.setSlot {σ : Type} (m : RepMem σ) (pid : Nat) (r : ReplySlot) : RepMem σ :=
  { m with slots := Function.update m.slots pid r }

structure Rinfo where
  tentative : Bool
  lsent : Option Nat

instance : Inhabited ReplySlot := ⟨ReplySlot.new⟩

inductive RepCall
  | newReply (pid : Nat)
  | endReply (pid : Nat)
  | use (pid : Nat) (slot : ReplySlot)

structure Exec (σ : Type) where
  mem : RepMem σ
  infos : Nat → Rinfo
  lastExecuted : Int
  lastTentative : Int
  /-- The batch of `last_tentative_execute`, until it is committed. -/
  pending : Option Batch
  /-- The last checkpoint. -/
  lc : Int
  saved : RepMem σ
  /-- The batches executed, latest first. -/
  executed : List Batch
  /-- The replies sent, latest first. -/
  sent : List (Nat × ReplySlot)
  calls : List RepCall
  halted : Bool

/-- What a handler meets: the view, the clock, and whether the handler of the own reply returns with
the message still allocated (in the heap build `handle(Reply)` deletes it where no request of the
replica is outstanding, `Replica.cc:2084-2092`, and to go on with it is undefined). -/
structure Occasion where
  view : Int
  now : Nat → Nat
  ownKept : Nat → Bool

inductive ExecEvent
  | request (r : ExecRequest)
  | prepared (b : Batch)
  | committed (b : Batch)
  | rollback
  | checkpoint
deriving DecidableEq, Repr

namespace Exec

open Prog (get modify assert when each)

variable {σ : Type} (A : App σ)

def newMem : RepMem σ := ⟨A.init, fun _ => ReplySlot.new, []⟩

def new : Exec σ where
  mem := newMem A
  infos := fun _ => ⟨true, none⟩
  lastExecuted := 0
  lastTentative := 0
  pending := none
  lc := 0
  saved := newMem A
  executed := []
  sent := []
  calls := []
  halted := false

/-! ## `Rep_info` -/

def setSlot (pid : Nat) (f : ReplySlot → ReplySlot) : Prog (Exec σ) Unit :=
  modify fun s => { s with mem := s.mem.setSlot pid (f (s.mem.slots pid)) }

def setInfo (pid : Nat) (i : Rinfo) : Prog (Exec σ) Unit :=
  modify fun s => { s with infos := Function.update s.infos pid i }

def record (c : RepCall) : Prog (Exec σ) Unit := modify fun s => { s with calls := c :: s.calls }

def send (pid : Nat) (r : ReplySlot) : Prog (Exec σ) Unit :=
  modify fun s => { s with sent := (pid, r) :: s.sent }

def newReply (pid : Nat) : Prog (Exec σ) Unit := do
  record (.newReply pid)
  setInfo pid ⟨true, none⟩
  setSlot pid fun r => { r with replySize := -1 }

/-- The slot after `end_reply`: `set_size` pads the message, and the place of the MAC is zeroed. -/
def ended (rid sz : Nat) (r : ReplySlot) : ReplySlot :=
  { (r.zero (sz + macSize) (alignedSize (sz + macSize) - (sz + macSize))).zero sz macSize with
    rid := rid, replySize :=
      sz, digest := A.digest ((List.range sz).map r.body), size := 64 + alignedSize (sz + macSize) }

def endReply (pid rid sz : Nat) : Prog (Exec σ) Unit := do
  let s ← get
  assert ((s.mem.slots pid).replySize == -1)
  record (.endReply pid)
  setSlot pid (ended A rid sz)

/-- The message as it is sent, before it has a MAC. -/
def stamped (view : Int) (id : Nat) (tentative : Bool) (r : ReplySlot) : ReplySlot :=
  { r with extra := if tentative then 1 else r.extra, v := view, replica := id }

/-- The changes are undone; `sz` is the size of the reply when the message was stamped. -/
def unstamped (sz : Nat) (r : ReplySlot) : ReplySlot :=
  { r.zero sz macSize with extra := 0, v := 0, replica := 0 }

variable (id : Nat) (o : Occasion)

/-- The early return: the last time is set and not long ago. -/
def recent (s : Exec σ) (pid : Nat) : Bool :=
  match (s.infos pid).lsent with
  | none => false
  | some t => o.now s.calls.length ≤ t + 10000

/-- The stamped message goes to its principal, with a MAC, or to the handler for the own replies. -/
def deliver (pid sz : Nat) : Prog (Exec σ) Unit := do
  let s ← get
  if pid = id then assert (o.ownKept s.calls.length)
  else do
    setSlot pid fun r => r.write sz (A.mac pid r)
    send pid ((s.mem.slots pid).write sz (A.mac pid (s.mem.slots pid)))

def transmit (pid : Nat) : Prog (Exec σ) Unit := do
  let s ← get
  when (!s.recent o pid) do
    setInfo pid { s.infos pid with lsent := (s.infos pid).lsent.map fun _ => o.now s.calls.length }
    setSlot pid (stamped o.view id (s.infos pid).tentative)
    deliver A id o pid (s.mem.slots pid).replySize.toNat
    setSlot pid (unstamped (s.mem.slots pid).replySize.toNat)

def sendReply (pid : Nat) (tentative : Bool) : Prog (Exec σ) Unit := do
  let s ← get
  record (.use pid (s.mem.slots pid))
  assert (decide (s.mem.slots pid).Built)
  when (!tentative && (s.infos pid).tentative) do
    setInfo pid ⟨false, none⟩
  transmit A id o pid

/-! ## `execute_prepared` and `execute_committed` -/

def isReplica (cid : Nat) : Bool := cid < A.numReplicas

/-- `Reply empty(...)`: only the digest is sent. -/
def sendEmpty (r : ExecRequest) (tentative : Bool) : Prog (Exec σ) Unit := do
  let s ← get
  record (.use r.cid (s.mem.slots r.cid))
  send r.cid { ReplySlot.new with
    extra := if tentative then 1 else 0, v :=
      o.view, rid := r.rid, replica := id, digest := (s.mem.slots r.cid).digest }

/-- The reply is finished, and sent to a client. -/
def finish (committed : Bool) (r : ExecRequest) (sz : Nat) : Prog (Exec σ) Unit := do
  endReply A r.cid r.rid sz
  when (sz != 0 && !isReplica A r.cid) do
    if sz < 50 ∨ r.replier = id ∨ r.replier < 0 then sendReply A id o r.cid (!committed)
    else sendEmpty id o r (!committed)

/-- The bytes of a sequence number. -/
def seqnoBytes (n : Int) : List UInt8 :=
  (List.range 8).map fun i => UInt8.ofNat ((n % 2 ^ 64).toNat / 256 ^ i)

/-- `ALIGNMENT_BYTES` (`Replica.h:47`). -/
def alignmentBytes : Nat := 2

/-- The memory after `exec_command`, with the padding of the reply. -/
def applied (choices : List UInt8) (r : ExecRequest) (m : RepMem σ) : RepMem σ × Nat :=
  let (app, body, sz) := A.exec m.app r.command choices r.cid (m.slots r.cid).body
  let slot := { m.slots r.cid with body := body }
  let slot := if sz % alignmentBytes = 0 then slot
    else slot.zero sz (alignmentBytes - sz % alignmentBytes)
  ({ m.setSlot r.cid slot with app := app, applied := (r.cid, r.rid) :: m.applied }, sz)

def execRequest (committed : Bool) (choices : List UInt8) (r : ExecRequest) :
    Prog (Exec σ) Unit := do
  assert (decide (r.cid < A.nps))
  let s ← get
  if r.rid ≤ (s.mem.slots r.cid).rid then sendReply A id o r.cid true
  else do
    newReply r.cid
    if isReplica A r.cid = true ∧ r.isRecovery = true then
      -- A recovery request of another size is left with the reply that `new_reply` began.
      when (r.command.length == 8) do
        setSlot r.cid fun slot => slot.write 0 (seqnoBytes s.lastTentative)
        finish A id o committed r 8
    else do
      let s ← get
      modify fun s => { s with mem := (applied A choices r s.mem).1 }
      finish A id o committed r (applied A choices r s.mem).2

def takeCheckpoint (n : Int) : Prog (Exec σ) Unit :=
  modify fun s => { s with saved := s.mem, lc := n }

def executePrepared (committed : Bool) (b : Batch) : Prog (Exec σ) Unit := do
  let s ← get
  when (decide (s.lastTentative < s.lastExecuted + 1)) do
    modify fun s => { s with lastTentative := s.lastExecuted + 1, pending := some b }
    assert (b.seqno == s.lastExecuted + 1)
    each (execRequest A id o committed b.choices) b.requests
    modify fun s => { s with executed := b :: s.executed }
    when ((s.lastExecuted + 1) % A.ckptInterval == 0) do
      takeCheckpoint (s.lastExecuted + 1)

/-- The reply to a request is committed. One to a replica is sent, the own one is handed to
`handle(Reply)`. -/
def commitRequest (r : ExecRequest) : Prog (Exec σ) Unit := do
  setInfo r.cid ⟨false, none⟩
  when (isReplica A r.cid) do
    if r.cid = id then do
      let s ← get
      record (.use r.cid (s.mem.slots r.cid))
      assert (o.ownKept s.calls.length)
    else sendReply A id o r.cid false

def executeCommitted (b : Batch) : Prog (Exec σ) Unit := do
  let s ← get
  let b := s.pending.getD b
  executePrepared A id o true b
  modify fun s => { s with lastExecuted := s.lastExecuted + 1, pending := none }
  assert (b.seqno == s.lastExecuted + 1)
  each (commitRequest A id o) b.requests

/-! ## Runs -/

def handle : ExecEvent → Prog (Exec σ) Unit
  | .request r => do
    let s ← get
    when ((s.mem.slots r.cid).rid == r.rid) do
      sendReply A id o r.cid true
  | .prepared b => executePrepared A id o false b
  | .committed b => executeCommitted A id o b
  | .rollback => do
    let s ← get
    assert (decide (0 ≤ s.lc))
    modify fun s => { s with mem := s.saved, lastExecuted := s.lc,
                             lastTentative := s.lc, pending := none }
  | .checkpoint => do
    let s ← get
    when (decide (s.lastTentative ≤ s.lastExecuted)) do
      takeCheckpoint s.lastExecuted

/-- Handle an event; a replica that stopped stays so. -/
def step (s : Exec σ) (e : Occasion × ExecEvent) : Exec σ :=
  if s.halted then
    s else { (handle A id e.1 e.2 s).2 with halted := (handle A id e.1 e.2 s).1.isNone }

/-- `s` fetches the last checkpoint of `t` (`new_state`). -/
def fetched (s t : Exec σ) : Exec σ :=
  { s with
    mem := t.saved, infos :=
      fun _ => ⟨false, none⟩, lastExecuted := t.lc, lastTentative := t.lc, pending := none
    lc := t.lc, saved := t.saved }

/-- The states of a replica `id` in runs whose events meet `ok`, also with states fetched from other
replicas. -/
inductive Reach (ok : ExecEvent → Prop) : Nat → Exec σ → Prop
  | start (id : Nat) : Reach ok id (new A)
  | step {id : Nat} {s : Exec σ} (o : Occasion) (e : ExecEvent) (h : Reach ok id s) (he : ok e) :
      Reach ok id (step A id s (o, e))
  | fetch {id id' : Nat} {s t : Exec σ} (h : Reach ok id s)
    (h' : Reach ok id' t) (hs : s.halted = false)
    (ht : t.halted = false) :
      Reach ok id (s.fetched t)

/-! ## `send_reply` leaves the memory as it is -/

/-- What every slot is like between handlers: the stamps are zero, and so is the place of the MAC of
a finished reply. -/
structure Clean (r : ReplySlot) : Prop where
  extra : r.extra = 0
  v : r.v = 0
  replica : r.replica = 0
  mac : r.replySize ≠ -1 → ∀ k, r.replySize.toNat ≤ k →
    k < r.replySize.toNat + macSize → r.body k = 0

variable {A id o} {s t : Exec σ} {pid : Nat} {r : ReplySlot}

theorem setSlot_setSlot (m : RepMem σ) (a b : ReplySlot) :
    (m.setSlot pid a).setSlot pid b = m.setSlot pid b := by
  simp [RepMem.setSlot]

theorem setSlot_self (m : RepMem σ) : m.setSlot pid (m.slots pid) = m := by simp [RepMem.setSlot]

@[simp] theorem slots_setSlot (m : RepMem σ) (a : ReplySlot) :
    (m.setSlot pid a).slots pid = a := by simp [RepMem.setSlot]

theorem slots_setSlot_ne (m : RepMem σ) (a : ReplySlot) {p : Nat} (h : p ≠ pid) :
    (m.setSlot pid a).slots p = m.slots p := by
  simp [RepMem.setSlot, h]

@[simp] theorem applied_setSlot (m : RepMem σ) (a : ReplySlot) :
    (m.setSlot pid a).applied = m.applied := rfl

/-- Undoing the changes gives the slot back, also after a MAC was written. -/
theorem unstamped_stamped (id : Nat) (hc : Clean r) (hb : r.Built) (view : Int) (tent : Bool)
    (mac : List UInt8) (hmac : mac.length = macSize) :
    unstamped r.replySize.toNat ((stamped view id tent r).write r.replySize.toNat mac) = r ∧
      unstamped r.replySize.toNat (stamped view id tent r) = r := by
  have hbody : ∀ b : Nat → UInt8,
    (∀ k, ¬(r.replySize.toNat ≤ k ∧ k < r.replySize.toNat + macSize) → b k = r.body k) →
      (fun k => if r.replySize.toNat ≤ k ∧ k < r.replySize.toNat + macSize then 0
        else b k) = r.body := by
    intro b hb'
    funext k
    split
    · rename_i hk
      exact (hc.mac hb.1 k hk.1 hk.2).symm
    · exact hb' k ‹_›
  obtain ⟨h1, h2, h3, -⟩ := hc
  cases r
  simp only [unstamped, stamped, ReplySlot.write, ReplySlot.zero, ReplySlot.mk.injEq, true_and] at *
  exact ⟨⟨h1.symm, h2.symm, h3.symm, hbody _ fun k hk => by rw [hmac, if_neg hk]⟩,
    h1.symm, h2.symm, h3.symm,
    hbody _ fun _ _ => rfl⟩

/-- What sending replies and building them leaves alone. -/
structure Frame (s t : Exec σ) : Prop where
  lastExecuted : t.lastExecuted = s.lastExecuted
  lastTentative : t.lastTentative = s.lastTentative
  pending : t.pending = s.pending
  lc : t.lc = s.lc
  saved : t.saved = s.saved
  executed : t.executed = s.executed

theorem Frame.refl (s : Exec σ) : Frame s s := ⟨rfl, rfl, rfl, rfl, rfl, rfl⟩

theorem Frame.trans {u : Exec σ} (h1 : Frame s t) (h2 : Frame t u) : Frame s u :=
  ⟨h2.lastExecuted.trans h1.lastExecuted, h2.lastTentative.trans h1.lastTentative,
    h2.pending.trans h1.pending,
    h2.lc.trans h1.lc, h2.saved.trans h1.saved, h2.executed.trans h1.executed⟩

/-- What a program leaves where it stops in the middle of sending a reply. -/
structure Cut (s t : Exec σ) : Prop where
  applied : t.mem.applied = s.mem.applied
  saved : t.saved = s.saved
  calls : t.calls = s.calls

theorem deliver_ensures (sz : Nat) : Prog.Ensures (deliver A id o pid sz) s
    (fun _ t => Frame s t ∧ t.calls = s.calls ∧
      (t.mem = s.mem ∨ ∃ mac : List UInt8, mac.length = macSize ∧
        t.mem = s.mem.setSlot pid ((s.mem.slots pid).write sz mac)))
    (Cut s) := by
  refine Prog.Reaches.get_bind (Prog.Reaches.ite (fun _ => ?_) fun _ => ?_)
  · exact Prog.Ensures.of_result (fun _ _ => ⟨Frame.refl s, rfl, .inl rfl⟩) fun _ => ⟨rfl, rfl, rfl⟩
  · refine Prog.Reaches.modify_bind trivial
      (Prog.Reaches.modify trivial ⟨⟨rfl, rfl, rfl, rfl, rfl, rfl⟩, rfl, .inr ?_⟩)
    exact ⟨_, A.mac_length pid _, rfl⟩

theorem transmit_ensures (hc : Clean (s.mem.slots pid)) (hb : (s.mem.slots pid).Built) :
    Prog.Ensures (transmit A id o pid) s (fun _ t =>
        Frame s t ∧ t.calls = s.calls ∧ t.mem = s.mem) (Cut s) := by
  refine Prog.Reaches.get_bind (Prog.Reaches.when (fun _ => ?_) fun _ => ⟨Frame.refl s, rfl, rfl⟩)
  refine Prog.Reaches.modify_bind trivial (Prog.Reaches.modify_bind trivial ?_)
  refine Prog.Ensures.bind ((deliver_ensures _).weaken (fun _ _ h => h)
    fun _ _ h => ⟨h.1, h.2, h.3⟩) fun _ t ht => ?_
  obtain ⟨hf, hcalls, hmem⟩ := ht
  refine Prog.Reaches.modify trivial ⟨⟨hf.1, hf.2, hf.3, hf.4, hf.5, hf.6⟩, hcalls, ?_⟩
  have hun := unstamped_stamped id hc hb o.view (s.infos pid).tentative
  rcases hmem with hmem | ⟨mac, hlen, hmem⟩
  · rw [hmem]
    simp only [slots_setSlot, setSlot_setSlot]
    rw [(hun _ (A.mac_length pid default)).2, setSlot_self]
  · rw [hmem]
    simp only [slots_setSlot, setSlot_setSlot]
    rw [(hun _ hlen).1, setSlot_self]

/-- **`send_reply` leaves the memory as it found it.** It returns only for a finished reply without
stamps, and uses nothing else. -/
theorem sendReply_ensures (hc : Clean (s.mem.slots pid)) (tent : Bool) :
    Prog.Ensures (sendReply A id o pid tent) s
      (fun _ t => Frame s t ∧ t.calls = .use pid (s.mem.slots pid) :: s.calls ∧
          t.mem = s.mem ∧ (s.mem.slots pid).Built)
      (fun t => t.mem.applied = s.mem.applied ∧ t.saved = s.saved ∧
          t.calls = .use pid (s.mem.slots pid) :: s.calls) := by
  refine Prog.Reaches.get_bind
    (Prog.Reaches.modify_bind trivial (Prog.Reaches.assert_bind ⟨rfl, rfl, rfl⟩ fun hb => ?_))
  have hb : (s.mem.slots pid).Built := of_decide_eq_true hb
  refine Prog.Ensures.bind (Q := fun _ t => Frame s t ∧
    t.calls = .use pid (s.mem.slots pid) :: s.calls ∧ t.mem = s.mem)
    (Prog.Reaches.when (fun _ =>
      Prog.Reaches.modify trivial ⟨⟨rfl, rfl, rfl, rfl, rfl, rfl⟩, rfl, rfl⟩)
      fun _ => ⟨⟨rfl, rfl, rfl, rfl, rfl, rfl⟩, rfl, rfl⟩) fun _ t ht => ?_
  obtain ⟨hf, hcalls, hmem⟩ := ht
  refine ((transmit_ensures (by rw [hmem]; exact hc) (by rw [hmem]; exact hb)).weaken
    (fun _ _ h => h) fun _ u h => ?_).mono
    fun _ u hu => ⟨hf.trans hu.1, hu.2.1.trans hcalls, hu.2.2.trans hmem, hb⟩
  exact ⟨h.applied.trans (by rw [hmem]), h.saved.trans hf.saved, h.calls.trans hcalls⟩

/-! ## What the execution of a request does -/

/-- The memory after a request with the batch of `n`: what every replica computes. -/
def execOne (A : App σ) (n : Int) (choices : List UInt8) (m : RepMem σ)
    (r : ExecRequest) : RepMem σ :=
  if r.rid ≤ (m.slots r.cid).rid then m
  else
    let m := m.setSlot r.cid { m.slots r.cid with replySize := -1 }
    if isReplica A r.cid = true ∧ r.isRecovery = true then
      if r.command.length = 8 then
        m.setSlot r.cid (ended A r.rid 8 ((m.slots r.cid).write 0 (seqnoBytes n))) else m
    else
      let p := applied A choices r m
      p.1.setSlot r.cid (ended A r.rid p.2 (p.1.slots r.cid))

/-- `new_reply` has begun a reply that is not finished. -/
def begun (pid : Nat) : List RepCall → Bool
  | [] => false
  | .newReply p :: cs => p == pid || begun pid cs
  | .endReply p :: cs => p != pid && begun pid cs
  | .use _ _ :: cs => begun pid cs

/-- Every `new_reply` is followed by its `end_reply` before the slot is used again, and every slot
used is built. -/
def Matched : List RepCall → Prop
  | [] => True
  | .newReply p :: cs => begun p cs = false ∧ Matched cs
  | .endReply p :: cs => begun p cs = true ∧ Matched cs
  | .use p slot :: cs => slot.Built ∧ begun p cs = false ∧ Matched cs

/-- Only uses of built replies to `pid` were added. -/
def AddsUses (pid : Nat) (cs cs' : List RepCall) : Prop :=
  ∃ us, cs' = us ++ cs ∧ ∀ c ∈ us, ∃ slot, c = .use pid slot ∧ slot.Built

theorem AddsUses.refl (cs : List RepCall) : AddsUses pid cs cs := ⟨[], rfl, by simp⟩

theorem AddsUses.use {cs : List RepCall} (h : r.Built) : AddsUses pid cs (.use pid r :: cs) :=
  ⟨[.use pid r], rfl, by simpa using h⟩

theorem begun_addsUses {cs cs' : List RepCall} (h : AddsUses pid cs cs') (p : Nat) :
    begun p cs' = begun p cs := by
  obtain ⟨us, rfl, hus⟩ := h
  induction us with
  | nil => rfl
  | cons c us ih =>
    obtain ⟨slot, rfl, -⟩ := hus c (by simp)
    exact ih fun c hc => hus c (by simp [hc])

theorem matched_addsUses {cs cs' : List RepCall} (h : AddsUses pid cs cs') (hm : Matched cs)
    (hb : begun pid cs = false) :
    Matched cs' := by
  obtain ⟨us, rfl, hus⟩ := h
  induction us with
  | nil => exact hm
  | cons c us ih =>
    obtain ⟨slot, rfl, hslot⟩ := hus c (by simp)
    have hus' : ∀ c ∈ us, ∃ slot, c = RepCall.use pid slot ∧ slot.Built :=
      fun c hc => hus c (by simp [hc])
    exact ⟨hslot, (begun_addsUses ⟨us, rfl, hus'⟩ pid).trans hb, ih hus'⟩

/-- A slot without stamps. -/
structure Plain (r : ReplySlot) : Prop where
  extra : r.extra = 0
  v : r.v = 0
  replica : r.replica = 0

theorem Clean.plain (h : Clean r) : Plain r := ⟨h.extra, h.v, h.replica⟩

theorem ended_built (h : Plain r) (rid sz : Nat) : (ended A rid sz r).Built :=
  ⟨by simp only [ended]; omega, h.extra, h.v, h.replica⟩

theorem ended_clean (h : Plain r) (rid sz : Nat) : Clean (ended A rid sz r) := by
  refine ⟨h.extra, h.v, h.replica, fun _ k h1 h2 => ?_⟩
  simp only [ended, Int.toNat_natCast] at h1 h2
  exact if_pos ⟨h1, h2⟩

theorem finish_ensures {q : ExecRequest} (hp : Plain (s.mem.slots q.cid))
    (hopen : (s.mem.slots q.cid).replySize = -1) (committed : Bool) (sz : Nat) :
    Prog.Ensures (finish A id o committed q sz) s
      (fun _ t => Frame s t ∧ t.mem = s.mem.setSlot q.cid (ended A q.rid sz (s.mem.slots q.cid)) ∧
        AddsUses q.cid (.endReply q.cid :: s.calls) t.calls)
      (fun t => t.mem.applied = s.mem.applied ∧ t.saved = s.saved ∧
          AddsUses q.cid (.endReply q.cid :: s.calls) t.calls) := by
  refine Prog.Ensures.bind (Q := fun _ t => Frame s t ∧
    t.mem = s.mem.setSlot q.cid (ended A q.rid sz (s.mem.slots q.cid)) ∧
    t.calls = .endReply q.cid :: s.calls) ?_ fun _ t ht => ?_
  · refine Prog.Reaches.get_bind ?_
    rw [hopen]
    exact Prog.Reaches.modify_bind trivial
      (Prog.Reaches.modify trivial ⟨⟨rfl, rfl, rfl, rfl, rfl, rfl⟩, rfl, rfl⟩)
  · obtain ⟨hf, hmem, hcalls⟩ := ht
    have hslot : t.mem.slots q.cid = ended A q.rid sz (s.mem.slots q.cid) := by
      rw [hmem, slots_setSlot]
    have hbuilt := ended_built (A := A) hp q.rid sz
    refine Prog.Reaches.when (fun _ => Prog.Reaches.ite (fun _ => ?_) fun _ => ?_) fun _ => ?_
    · refine ((sendReply_ensures (by rw [hslot]; exact ended_clean hp _ _) _).mono
        fun _ u hu => ?_).weaken
        (fun _ _ h => h) fun _ u hu => ?_
      · exact ⟨hf.trans hu.1, hu.2.2.1.trans hmem, by rw [hu.2.1, hcalls, hslot]; exact .use hbuilt⟩
      · refine ⟨by rw [hu.1, hmem]; rfl, hu.2.1.trans hf.saved, ?_⟩
        rw [hu.2.2, hcalls, hslot]
        exact .use hbuilt
    · refine Prog.Reaches.get_bind
        (Prog.Reaches.modify_bind trivial (Prog.Reaches.modify trivial ⟨?_, hmem, ?_⟩))
      · exact ⟨hf.1, hf.2, hf.3, hf.4, hf.5, hf.6⟩
      · change AddsUses _ _ (.use q.cid (t.mem.slots q.cid) :: t.calls)
        rw [hcalls, hslot]
        exact .use hbuilt
    · exact ⟨hf, hmem, by rw [hcalls]; exact .refl _⟩

theorem matched_finished {cs cs' : List RepCall} (hm : Matched cs) (hb : ∀ p, begun p cs = false)
    (h : AddsUses pid (.endReply pid :: .newReply pid :: cs) cs') :
    Matched cs' ∧ ∀ p, begun p cs' = false := by
  have hb' : ∀ p, begun p (.endReply pid :: .newReply pid :: cs) = false := by
    intro p
    by_cases hp : pid = p <;> simp [begun, hp, hb p]
  refine ⟨matched_addsUses h ⟨by simp [begun], hb pid, hm⟩ (hb' pid), fun p => ?_⟩
  rw [begun_addsUses h p, hb' p]

/-- A replica numbers its requests from one, and its recovery requests hold a sequence number. -/
def WellFormed (A : App σ) (q : ExecRequest) : Prop :=
  q.rid ≠ 0 ∧ (isReplica A q.cid = true → q.isRecovery = true → q.command.length = 8)

/-- The replies with a request id are finished. -/
def Finished (m : RepMem σ) : Prop := ∀ p, (m.slots p).rid ≠ 0 → (m.slots p).replySize ≠ -1

/-- Between handlers no reply is begun. -/
structure Ready (s : Exec σ) : Prop where
  finished : Finished s.mem
  matched : Matched s.calls
  begun : ∀ p, begun p s.calls = false

/-- The request ids applied for a client increase; the latest comes first. -/
def Increasing (applied : List (Nat × Nat)) : Prop :=
  applied.Pairwise fun later earlier => later.1 = earlier.1 → earlier.2 < later.2

/-- No request id applied is above the one in the slot of its client. -/
structure Bounded (m : RepMem σ) : Prop where
  increasing : Increasing m.applied
  le : ∀ q ∈ m.applied, q.2 ≤ (m.slots q.1).rid

section ExecOne

variable {n : Int} {choices : List UInt8} {m : RepMem σ} {q : ExecRequest}

/-- How a request changes the slots: its own gets its id and a finished reply, unless the request
was executed before or is a recovery request of another size. -/
theorem execOne_slots (n : Int) (choices : List UInt8) (m : RepMem σ) (q : ExecRequest) :
    (q.rid ≤ (m.slots q.cid).rid ∧ execOne A n choices m q = m) ∨
    ((m.slots q.cid).rid < q.rid ∧
        (∀ p, p ≠ q.cid → (execOne A n choices m q).slots p = m.slots p) ∧
      (((isReplica A q.cid = true ∧ q.isRecovery = true ∧ q.command.length ≠ 8) ∧
          execOne A n choices m q = m.setSlot q.cid { m.slots q.cid with replySize := -1 }) ∨
        ∃ (r : ReplySlot) (sz : Nat), (r.extra = (m.slots q.cid).extra ∧ r.v = (m.slots q.cid).v ∧
            r.replica = (m.slots q.cid).replica) ∧
          (execOne A n choices m q).slots q.cid = ended A q.rid sz r ∧
          ((execOne A n choices m q).applied = m.applied ∨
            (execOne A n choices m q).applied = (q.cid, q.rid) :: m.applied))) := by
  unfold execOne
  by_cases hle : q.rid ≤ (m.slots q.cid).rid
  · exact .inl ⟨hle, if_pos hle⟩
  refine .inr ⟨by omega, ?_⟩
  rw [if_neg hle]
  by_cases hrec : isReplica A q.cid = true ∧ q.isRecovery = true
  · simp only [if_pos hrec]
    by_cases hlen : q.command.length = 8
    · rw [if_pos hlen]
      refine ⟨fun p hp => ?_, .inr ⟨_, _, ⟨?_, ?_, ?_⟩, slots_setSlot _ _, .inl rfl⟩⟩
      · rw [slots_setSlot_ne _ _ hp, slots_setSlot_ne _ _ hp]
      all_goals simp [ReplySlot.write]
    · rw [if_neg hlen]
      exact ⟨fun p hp => slots_setSlot_ne _ _ hp, .inl ⟨⟨hrec.1, hrec.2, hlen⟩, rfl⟩⟩
  · simp only [if_neg hrec]
    refine ⟨fun p hp => ?_, .inr ⟨_, _, ⟨?_, ?_, ?_⟩, slots_setSlot _ _, .inr rfl⟩⟩
    · rw [slots_setSlot_ne _ _ hp]
      simp only [applied]
      rw [slots_setSlot_ne _ _ hp, slots_setSlot_ne _ _ hp]
    all_goals
      simp only [applied, RepMem.setSlot, Function.update_self]
      split <;> rfl

theorem execOne_clean (h : ∀ p, Clean (m.slots p)) (p : Nat) :
    Clean ((execOne A n choices m q).slots p) := by
  rcases execOne_slots (A := A) n choices m q with ⟨-, he⟩ | ⟨-,
    hne, ⟨-, he⟩ | ⟨r, sz, ⟨h1, h2, h3⟩, he, -⟩⟩
  · rw [he]
    exact h p
  · by_cases hp : p = q.cid
    · subst hp
      rw [he, slots_setSlot]
      exact ⟨(h _).1, (h _).2, (h _).3, fun hn => absurd rfl hn⟩
    · rw [hne p hp]
      exact h p
  · by_cases hp : p = q.cid
    · subst hp
      rw [he]
      exact ended_clean ⟨h1.trans (h _).1, h2.trans (h _).2, h3.trans (h _).3⟩ _ _
    · rw [hne p hp]
      exact h p

/-- Request ids in the slots only grow. -/
theorem execOne_rid_le (p : Nat) : (m.slots p).rid ≤ ((execOne A n choices m q).slots p).rid := by
  rcases execOne_slots (A := A) n choices m q with ⟨-, he⟩ | ⟨hlt, hne, ⟨-, he⟩ | ⟨r, sz, -, he, -⟩⟩
  · rw [he]
  · by_cases hp : p = q.cid
    · subst hp
      rw [he, slots_setSlot]
    · rw [hne p hp]
  · by_cases hp : p = q.cid
    · subst hp
      rw [he]
      exact Nat.le_of_lt hlt
    · rw [hne p hp]

theorem execOne_done (hw : WellFormed A q) :
    q.rid ≤ ((execOne A n choices m q).slots q.cid).rid := by
  rcases execOne_slots (A := A) n choices m q with ⟨h, he⟩ | ⟨-, -, ⟨hbad, -⟩ | ⟨r, sz, -, he, -⟩⟩
  · rwa [he]
  · exact absurd (hw.2 hbad.1 hbad.2.1) hbad.2.2
  · rw [he]
    exact le_rfl

theorem execOne_finished (h : Finished m) (hw : WellFormed A q) :
    Finished (execOne A n choices m q) := by
  rcases execOne_slots (A := A) n choices m q with ⟨-, he⟩ | ⟨-, hne, ⟨hbad, -⟩ | ⟨r, sz, -, he, -⟩⟩
  · rwa [he]
  · exact absurd (hw.2 hbad.1 hbad.2.1) hbad.2.2
  · intro p hp
    by_cases hpq : p = q.cid
    · subst hpq
      rw [he]
      simp only [ended]
      omega
    · rw [hne p hpq] at hp ⊢
      exact h p hp

/-- A request is applied only if its id is above all those applied for its client. -/
theorem execOne_bounded (h : Bounded m) : Bounded (execOne A n choices m q) := by
  have hle : ∀ a ∈ m.applied, a.2 ≤ ((execOne A n choices m q).slots a.1).rid := fun a ha =>
    Nat.le_trans (h.le a ha) (execOne_rid_le _)
  rcases execOne_slots (A := A) n choices m q with ⟨-, he⟩ | ⟨hlt,
    -, ⟨-, he⟩ | ⟨r, sz, -, he, happ | happ⟩⟩
  · rwa [he]
  · have happ : (execOne A n choices m q).applied = m.applied := by rw [he]; rfl
    exact ⟨happ ▸ h.increasing, fun a ha => hle a (happ ▸ ha)⟩
  · exact ⟨happ ▸ h.increasing, fun a ha => hle a (happ ▸ ha)⟩
  · refine ⟨?_, fun a ha => ?_⟩
    · rw [happ]
      refine List.pairwise_cons.2 ⟨fun a ha heq => ?_, h.increasing⟩
      have hq : q.cid = a.1 := heq
      have := h.le a ha
      rw [← hq] at this
      exact Nat.lt_of_le_of_lt this hlt
    · rw [happ] at ha
      rcases List.mem_cons.1 ha with rfl | ha
      · change q.rid ≤ ((execOne A n choices m q).slots q.cid).rid
        rw [he]
        exact le_rfl
      · exact hle a ha

end ExecOne

/-- **The execution of a request.** It returns with the memory that every replica computes. Where
the replies are ready and the request is well-formed they are ready again; where it stops, no reply
was used that is not built. -/
theorem execRequest_ensures (hc : ∀ p, Clean (s.mem.slots p)) (committed : Bool)
    (choices : List UInt8) (q : ExecRequest) :
    Prog.Ensures (execRequest A id o committed choices q) s
      (fun _ t => Frame s t ∧ t.mem = execOne A s.lastTentative choices s.mem q ∧
        (Ready s → WellFormed A q → Ready t))
      (fun t => t.saved = s.saved ∧ (Bounded s.mem → Increasing t.mem.applied) ∧
        (Ready s → WellFormed A q → Matched t.calls)) := by
  refine Prog.Reaches.assert_bind ⟨rfl, fun h => h.increasing, fun h _ => h.matched⟩ fun _ => ?_
  refine Prog.Reaches.get_bind (Prog.Reaches.ite (fun hle => ?_) fun hlt => ?_)
  · -- the request was executed before: the reply is sent again
    have hone : execOne A s.lastTentative choices s.mem q = s.mem := if_pos hle
    have hbuilt : Ready s → WellFormed A q → (s.mem.slots q.cid).Built := fun hr hw =>
      ⟨hr.finished _ (by have := hw.1; omega), (hc _).extra, (hc _).v, (hc _).replica⟩
    refine ((sendReply_ensures (hc q.cid) true).mono fun _ t ht => ?_).weaken (fun _ _ h => h)
      fun _ t ht => ?_
    · obtain ⟨hf, hcalls, hmem, hb⟩ := ht
      refine ⟨hf, hmem.trans hone.symm, fun hr _ => ⟨hmem ▸ hr.finished, ?_, fun p => ?_⟩⟩
      · rw [hcalls]
        exact ⟨hb, hr.begun _, hr.matched⟩
      · rw [hcalls]
        exact hr.begun p
    · refine ⟨ht.2.1, fun h => by rw [ht.1]; exact h.increasing, fun hr hw => ?_⟩
      rw [ht.2.2]
      exact ⟨hbuilt hr hw, hr.begun _, hr.matched⟩
  · -- a new reply is begun
    have hlt : (s.mem.slots q.cid).rid < q.rid := by omega
    set m := s.mem.setSlot q.cid { s.mem.slots q.cid with replySize := -1 } with hm
    refine Prog.Ensures.bind (Q := fun _ t => Frame s t ∧
      t.mem = m ∧ t.calls = .newReply q.cid :: s.calls) ?_ fun _ t ht => ?_
    · exact Prog.Reaches.modify_bind trivial (Prog.Reaches.modify_bind trivial
        (Prog.Reaches.modify trivial ⟨⟨rfl, rfl, rfl, rfl, rfl, rfl⟩, rfl, rfl⟩))
    obtain ⟨hf, hmem, hcalls⟩ := ht
    have hplain : Plain (m.slots q.cid) := by
      rw [hm, slots_setSlot]
      exact ⟨(hc _).extra, (hc _).v, (hc _).replica⟩
    have hopen : (m.slots q.cid).replySize = -1 := by rw [hm, slots_setSlot]
    have hready : ∀ u : Exec σ, u.mem = execOne A s.lastTentative choices s.mem q →
        AddsUses q.cid (.endReply q.cid :: .newReply q.cid :: s.calls) u.calls →
          Ready s → WellFormed A q → Ready u := by
      intro u hu hadd hr hw
      obtain ⟨h1, h2⟩ := matched_finished hr.matched hr.begun hadd
      exact ⟨hu ▸ execOne_finished hr.finished hw, h1, h2⟩
    refine Prog.Reaches.ite (fun hrec => ?_) fun hrec => ?_
    · refine Prog.Reaches.when (fun hlen => ?_) fun hlen => ?_
      · have hlen : q.command.length = 8 := by simpa using hlen
        have hone : execOne A s.lastTentative choices s.mem q =
            m.setSlot q.cid
              (ended A q.rid 8 ((m.slots q.cid).write 0 (seqnoBytes s.lastTentative))) := by
          rw [execOne, if_neg (by omega)]
          simp only [if_pos hrec, if_pos hlen, ← hm]
        refine Prog.Reaches.modify_bind trivial ?_
        refine ((finish_ensures (A := A) (o := o) (q := q) ?_ ?_ committed 8).mono
          fun _ u hu => ?_).weaken
          (fun _ _ h => h) fun _ u hu => ?_
        · change Plain ((t.mem.setSlot _ _).slots q.cid)
          rw [slots_setSlot, hmem]
          exact ⟨hplain.1, hplain.2, hplain.3⟩
        · change ((t.mem.setSlot _ _).slots q.cid).replySize = -1
          rw [slots_setSlot, hmem]
          exact hopen
        · obtain ⟨hfu, hmu, hadd⟩ := hu
          have hmu : u.mem = execOne A s.lastTentative choices s.mem q := by
            rw [hmu, hone]
            change (t.mem.setSlot _ _).setSlot _
              (ended A q.rid 8 ((t.mem.setSlot _ _).slots q.cid)) = _
            rw [slots_setSlot, setSlot_setSlot, hmem]
          refine ⟨hf.trans ⟨hfu.1, hfu.2, hfu.3, hfu.4, hfu.5, hfu.6⟩, hmu, hready u hmu ?_⟩
          rw [← hcalls]
          exact hadd
        · obtain ⟨happ, hsav, hadd⟩ := hu
          refine ⟨hsav.trans hf.saved, fun h => ?_, fun hr _ => ?_⟩
          · rw [happ]
            change Increasing t.mem.applied
            rw [hmem]
            exact h.increasing
          · change AddsUses _ (.endReply q.cid :: t.calls) _ at hadd
            rw [hcalls] at hadd
            exact (matched_finished hr.matched hr.begun hadd).1
      · -- a recovery request of another size
        have hlen : ¬q.command.length = 8 := by simpa using hlen
        refine ⟨hf, ?_, fun _ hw => absurd (hw.2 hrec.1 hrec.2) hlen⟩
        rw [hmem, execOne, if_neg (by omega)]
        simp only [if_pos hrec, if_neg hlen, ← hm]
    · have hone : execOne A s.lastTentative choices s.mem q =
          (applied A choices q m).1.setSlot q.cid
            (ended A q.rid (applied A choices q m).2 ((applied A choices q m).1.slots q.cid)) := by
        rw [execOne, if_neg (by omega)]
        simp only [if_neg hrec, ← hm]
      have hslot : ∀ r, r = (applied A choices q m).1.slots q.cid → Plain r ∧ r.replySize = -1 := by
        rintro r rfl
        have : ((applied A choices q m).1.slots q.cid).extra = (m.slots q.cid).extra ∧
            ((applied A choices q m).1.slots q.cid).v = (m.slots q.cid).v ∧
            ((applied A choices q m).1.slots q.cid).replica = (m.slots q.cid).replica ∧
            ((applied A choices q m).1.slots q.cid).replySize = (m.slots q.cid).replySize := by
          simp only [applied, RepMem.setSlot, Function.update_self]
          split <;> exact ⟨rfl, rfl, rfl, rfl⟩
        exact ⟨⟨this.1.trans hplain.1, this.2.1.trans hplain.2, this.2.2.1.trans hplain.3⟩,
          this.2.2.2.trans hopen⟩
      refine Prog.Reaches.get_bind (Prog.Reaches.modify_bind trivial ?_)
      rw [hmem]
      refine ((finish_ensures (A := A) (o := o) (q := q)
        (hslot _ ?_).1 (hslot _ ?_).2 committed _).mono
        fun _ u hu => ?_).weaken (fun _ _ h => h) fun _ u hu => ?_
      · rfl
      · rfl
      · obtain ⟨hfu, hmu, hadd⟩ := hu
        have hmu : u.mem = execOne A s.lastTentative choices s.mem q := hmu.trans hone.symm
        refine ⟨hf.trans ⟨hfu.1, hfu.2, hfu.3, hfu.4, hfu.5, hfu.6⟩, hmu, hready u hmu ?_⟩
        rw [← hcalls]
        exact hadd
      · obtain ⟨happ, hsav, hadd⟩ := hu
        refine ⟨hsav.trans hf.saved, fun h => ?_, fun hr _ => ?_⟩
        · have : Bounded (execOne A s.lastTentative choices s.mem q) := execOne_bounded h
          rw [hone] at this
          rw [happ]
          exact this.increasing
        · change AddsUses _ (.endReply q.cid :: t.calls) _ at hadd
          rw [hcalls] at hadd
          exact (matched_finished hr.matched hr.begun hadd).1

/-! ## Batches -/

/-- The memory after a batch: what every replica computes. -/
def execBatch (A : App σ) (m : RepMem σ) (b : Batch) : RepMem σ :=
  b.requests.foldl (execOne A b.seqno b.choices) m

section Batches

variable {n : Int} {choices : List UInt8} {b : Batch}

theorem foldl_clean (rs : List ExecRequest) {m : RepMem σ} (h : ∀ p, Clean (m.slots p)) (p : Nat) :
    Clean ((rs.foldl (execOne A n choices) m).slots p) := by
  induction rs generalizing m with
  | nil => exact h p
  | cons q rs ih => exact ih fun p => execOne_clean h p

theorem foldl_bounded (rs : List ExecRequest) {m : RepMem σ} (h : Bounded m) :
    Bounded (rs.foldl (execOne A n choices) m) := by
  induction rs generalizing m with
  | nil => exact h
  | cons q rs ih => exact ih (execOne_bounded h)

theorem foldl_rid_le (rs : List ExecRequest) (m : RepMem σ) (p : Nat) :
    (m.slots p).rid ≤ ((rs.foldl (execOne A n choices) m).slots p).rid := by
  induction rs generalizing m with
  | nil => exact le_rfl
  | cons q rs ih => exact Nat.le_trans (execOne_rid_le p) (ih _)

/-- Every well-formed request of a batch is in the reply area afterwards. -/
theorem foldl_done (rs : List ExecRequest) (hw : ∀ q ∈ rs, WellFormed A q) (m : RepMem σ) :
    ∀ q ∈ rs, q.rid ≤ ((rs.foldl (execOne A n choices) m).slots q.cid).rid := by
  induction rs generalizing m with
  | nil => simp
  | cons r rs ih =>
    intro q hq
    rcases List.mem_cons.1 hq with rfl | hq
    · exact Nat.le_trans (execOne_done (hw q (by simp))) (foldl_rid_le rs _ q.cid)
    · exact ih (fun q hq => hw q (by simp [hq])) _ q hq

theorem requests_ensures (committed : Bool) (choices : List UInt8) (rs : List ExecRequest) :
    ∀ {s : Exec σ}, (∀ p, Clean (s.mem.slots p)) →
      Prog.Ensures (Prog.each (execRequest A id o committed choices) rs) s
      (fun _ t => Frame s t ∧ t.mem = rs.foldl (execOne A s.lastTentative choices) s.mem ∧
        (Ready s → (∀ q ∈ rs, WellFormed A q) → Ready t))
      (fun t => (Bounded s.mem → Increasing t.mem.applied) ∧
        (Ready s → (∀ q ∈ rs, WellFormed A q) → Matched t.calls)) := by
  induction rs with
  | nil => exact fun _ => ⟨.refl, Frame.refl _, rfl, fun h _ => h⟩
  | cons q rs ih =>
    intro s hc
    refine Prog.Ensures.bind ((execRequest_ensures hc committed choices q).weaken (fun _ _ h => h)
      fun _ t ht => ?_)
      fun _ t ht => ?_
    · exact ⟨ht.2.1, fun hr hw => ht.2.2 hr (hw q (by simp))⟩
    · obtain ⟨hf, hmem, hready⟩ := ht
      have hct : ∀ p, Clean (t.mem.slots p) := fun p => hmem ▸ execOne_clean hc p
      have hbt : Bounded s.mem → Bounded t.mem := fun h => hmem ▸ execOne_bounded h
      have hrt : Ready s → (∀ q' ∈ q :: rs, WellFormed A q') → Ready t :=
        fun hr hw => hready hr (hw q (by simp))
      refine ((ih hct).mono fun _ u hu => ?_).weaken (fun _ _ h => h) fun _ u hu => ?_
      · refine ⟨hf.trans hu.1, ?_, fun hr hw => hu.2.2 (hrt hr hw)
          fun q' hq' => hw q' (by simp [hq'])⟩
        rw [hu.2.1, hmem, hf.lastTentative]
        rfl
      · exact ⟨fun h => hu.1 (hbt h), fun hr hw => hu.2 (hrt hr hw)
          fun q' hq' => hw q' (by simp [hq'])⟩

/-- What `execute_prepared` does where it executes the batch. -/
structure Executed (A : App σ) (b : Batch) (s t : Exec σ) : Prop where
  seqno : b.seqno = s.lastExecuted + 1
  mem : t.mem = execBatch A s.mem b
  lastExecuted : t.lastExecuted = s.lastExecuted
  lastTentative : t.lastTentative = s.lastExecuted + 1
  pending : t.pending = some b
  executed : t.executed = b :: s.executed
  saved : t.saved = s.saved ∨ t.saved = t.mem
  ready : Ready s → (∀ q ∈ b.requests, WellFormed A q) → Ready t

theorem executePrepared_ensures (hc : ∀ p, Clean (s.mem.slots p)) (hb : Bounded s.mem)
    (committed : Bool) :
    Prog.Ensures (executePrepared A id o committed b) s
      (fun _ t => (s.lastExecuted < s.lastTentative ∧ t = s) ∨ Executed A b s t)
      (fun t => Increasing t.mem.applied ∧
          (Ready s → (∀ q ∈ b.requests, WellFormed A q) → Matched t.calls)) := by
  refine Prog.Reaches.get_bind (Prog.Reaches.when (fun _ => ?_)
    fun hge => .inl ⟨by have := of_decide_eq_false hge; omega, rfl⟩)
  refine Prog.Reaches.modify_bind trivial
    (Prog.Reaches.assert_bind ⟨hb.increasing, fun h _ => h.matched⟩ fun hseq => ?_)
  have hseq : b.seqno = s.lastExecuted + 1 := by simpa using hseq
  refine Prog.Ensures.bind
    ((requests_ensures committed b.choices b.requests (A := A) (o := o) ?_).weaken
    (fun _ _ h => h) fun _ t ht => ?_) fun _ t ht => ?_
  · exact hc
  · exact ⟨ht.1 hb, fun hr hw => ht.2 ⟨hr.1, hr.2, hr.3⟩ hw⟩
  · obtain ⟨hf, hmem, hready⟩ := ht
    have hmem : t.mem = execBatch A s.mem b := by
      rw [hmem, execBatch, hseq]
    have hready : Ready s → (∀ q ∈ b.requests, WellFormed A q) → Ready t :=
      fun hr hw => hready ⟨hr.1, hr.2, hr.3⟩ hw
    refine Prog.Reaches.modify_bind trivial
      (Prog.Reaches.when (fun _ => Prog.Reaches.modify trivial (.inr ?_)) fun _ => .inr ?_)
    · exact ⟨hseq, hmem, hf.1, hf.2, hf.3, congrArg _ hf.6,
        .inr rfl, fun hr hw => ⟨(hready hr hw).1, (hready hr hw).2,
        (hready hr hw).3⟩⟩
    · exact ⟨hseq, hmem, hf.1, hf.2, hf.3, congrArg _ hf.6,
        .inl hf.5, fun hr hw => ⟨(hready hr hw).1, (hready hr hw).2,
        (hready hr hw).3⟩⟩

theorem commitRequest_ensures (hc : ∀ p, Clean (s.mem.slots p)) (q : ExecRequest) :
    Prog.Ensures (commitRequest A id o q) s
      (fun _ t => Frame s t ∧ t.mem = s.mem ∧
          (Ready s → q.rid ≠ 0 → q.rid ≤ (s.mem.slots q.cid).rid → Ready t))
      (fun t => t.mem.applied = s.mem.applied ∧
        (Ready s → q.rid ≠ 0 → q.rid ≤ (s.mem.slots q.cid).rid → Matched t.calls)) := by
  have hbuilt : Ready s → q.rid ≠ 0 → q.rid ≤ (s.mem.slots q.cid).rid → (s.mem.slots q.cid).Built :=
    fun hr h0 hle =>
    ⟨hr.finished _ (by omega), (hc _).extra, (hc _).v, (hc _).replica⟩
  refine Prog.Reaches.modify_bind trivial
    (Prog.Reaches.when (fun _ => Prog.Reaches.ite (fun _ => ?_) fun _ => ?_) fun _ => ?_)
  · refine Prog.Reaches.get_bind (Prog.Reaches.modify_bind trivial ?_)
    refine Prog.Ensures.of_result (fun _ _ =>
      ⟨⟨rfl, rfl, rfl, rfl, rfl, rfl⟩, rfl, fun hr h0 hle => ?_⟩) fun _ =>
      ⟨rfl, fun hr h0 hle => ⟨hbuilt hr h0 hle, hr.begun _, hr.matched⟩⟩
    exact ⟨hr.finished, ⟨hbuilt hr h0 hle, hr.begun _, hr.matched⟩, hr.begun⟩
  · refine ((sendReply_ensures ?_ false).mono fun _ t ht => ?_).weaken (fun _ _ h => h)
      fun _ t ht => ?_
    · exact hc q.cid
    · obtain ⟨hf, hcalls, hmem, hb⟩ := ht
      refine ⟨⟨hf.1, hf.2, hf.3, hf.4, hf.5, hf.6⟩,
        hmem, fun hr _ _ => ⟨hmem ▸ hr.finished, ?_, fun p => ?_⟩⟩
      · rw [hcalls]
        exact ⟨hb, hr.begun _, hr.matched⟩
      · rw [hcalls]
        exact hr.begun p
    · refine ⟨ht.1, fun hr h0 hle => ?_⟩
      rw [ht.2.2]
      exact ⟨hbuilt hr h0 hle, hr.begun _, hr.matched⟩
  · exact ⟨⟨rfl, rfl, rfl, rfl, rfl, rfl⟩, rfl, fun hr _ _ => ⟨hr.1, hr.2, hr.3⟩⟩

theorem commits_ensures (rs : List ExecRequest) :
    ∀ {s : Exec σ}, (∀ p, Clean (s.mem.slots p)) →
      Prog.Ensures (Prog.each (commitRequest A id o) rs) s
      (fun _ t => Frame s t ∧ t.mem = s.mem ∧
        (Ready s → (∀ q ∈ rs, q.rid ≠ 0 ∧ q.rid ≤ (s.mem.slots q.cid).rid) → Ready t))
      (fun t => t.mem.applied = s.mem.applied ∧
        (Ready s → (∀ q ∈ rs, q.rid ≠ 0 ∧ q.rid ≤ (s.mem.slots q.cid).rid) → Matched t.calls)) := by
  induction rs with
  | nil => exact fun _ => ⟨.refl, Frame.refl _, rfl, fun h _ => h⟩
  | cons q rs ih =>
    intro s hc
    refine Prog.Ensures.bind ((commitRequest_ensures hc q).weaken (fun _ _ h => h) fun _ t ht => ?_)
      fun _ t ht => ?_
    · exact ⟨ht.1, fun hr hw => ht.2 hr (hw q (by simp)).1 (hw q (by simp)).2⟩
    · obtain ⟨hf, hmem, hready⟩ := ht
      have hrt : Ready s → (∀ q' ∈ q :: rs, q'.rid ≠ 0 ∧ q'.rid ≤ (s.mem.slots q'.cid).rid) →
        Ready t := fun hr hw =>
        hready hr (hw q (by simp)).1 (hw q (by simp)).2
      have hwt : (∀ q' ∈ q :: rs, q'.rid ≠ 0 ∧ q'.rid ≤ (s.mem.slots q'.cid).rid) →
          ∀ q' ∈ rs, q'.rid ≠ 0 ∧ q'.rid ≤ (t.mem.slots q'.cid).rid := fun hw q' hq' => by
        rw [hmem]
        exact hw q' (by simp [hq'])
      refine ((ih fun p => hmem ▸ hc p).mono fun _ u hu => ?_).weaken (fun _ _ h => h)
        fun _ u hu => ?_
      · exact ⟨hf.trans hu.1, hu.2.1.trans hmem, fun hr hw => hu.2.2 (hrt hr hw) (hwt hw)⟩
      · exact ⟨hu.1.trans (by rw [hmem]), fun hr hw => hu.2 (hrt hr hw) (hwt hw)⟩

end Batches

/-! ## Handlers -/

/-- What holds of the memory and of the last checkpoint between handlers. -/
structure Inv (s : Exec σ) : Prop where
  clean : ∀ p, Clean (s.mem.slots p)
  bounded : Bounded s.mem
  cleanSaved : ∀ p, Clean (s.saved.slots p)
  boundedSaved : Bounded s.saved
  window : s.lastTentative ≤ s.lastExecuted + 1

/-- Every request of the event is well-formed. -/
def EventWellFormed (A : App σ) : ExecEvent → Prop
  | .request q => q.rid ≠ 0
  | .prepared b | .committed b => ∀ q ∈ b.requests, WellFormed A q
  | .rollback | .checkpoint => True

/-- What holds besides where the requests are well-formed. -/
structure Tidy (A : App σ) (s : Exec σ) : Prop where
  ready : Ready s
  saved : Finished s.saved
  wellFormed : ∀ b, s.pending = some b → ∀ q ∈ b.requests, WellFormed A q
  done : s.lastExecuted < s.lastTentative → ∃ b, s.pending = some b ∧ ∀ q ∈ b.requests,
    q.rid ≤ (s.mem.slots q.cid).rid

/-- The memory is what the batches executed make of it. -/
def Ran (A : App σ) (s t : Exec σ) : Prop :=
  ∃ bs, t.executed = bs ++ s.executed ∧ t.mem = bs.foldr (fun b m => execBatch A m b) s.mem

theorem Ran.of_mem (he : t.executed = s.executed) (hm : t.mem = s.mem) : Ran A s t := ⟨[], he, hm⟩

section Handlers

variable {b : Batch} {e : ExecEvent}

theorem Executed.inv (h : Executed A b s t) (hi : Inv s) : Inv t := by
  have hclean : ∀ p, Clean (t.mem.slots p) := fun p => h.mem ▸ foldl_clean b.requests hi.clean p
  have hbounded : Bounded t.mem := h.mem ▸ foldl_bounded b.requests hi.bounded
  have hwindow : t.lastTentative ≤ t.lastExecuted + 1 := by
    have h1 := h.lastTentative
    have h2 := h.lastExecuted
    omega
  rcases h.saved with hs | hs
  · exact ⟨hclean, hbounded, hs ▸ hi.cleanSaved, hs ▸ hi.boundedSaved, hwindow⟩
  · exact ⟨hclean, hbounded, hs ▸ hclean, hs ▸ hbounded, hwindow⟩

theorem Executed.tidy (h : Executed A b s t) (hw : ∀ q ∈ b.requests, WellFormed A q)
    (ht : Tidy A s) : Tidy A t := by
  have hready := h.ready ht.ready hw
  refine ⟨hready, ?_, fun b' hb' => ?_, fun _ => ⟨b, h.pending, fun q hq => ?_⟩⟩
  · rcases h.saved with hs | hs
    · rw [hs]
      exact ht.saved
    · rw [hs]
      exact hready.finished
  · rw [h.pending] at hb'
    cases hb'
    exact hw
  · rw [h.mem]
    exact foldl_done b.requests hw s.mem q hq

theorem Executed.ran (h : Executed A b s t) : Ran A s t := ⟨[b], h.executed, h.mem⟩

theorem executeCommitted_ensures (hi : Inv s) : Prog.Ensures (executeCommitted A id o b) s
    (fun _ t => Inv t ∧ (EventWellFormed A (.committed b) → Tidy A s → Tidy A t) ∧ Ran A s t)
    (fun t => Increasing t.mem.applied ∧
        (EventWellFormed A (.committed b) → Tidy A s → Matched t.calls)) := by
  refine Prog.Reaches.get_bind ?_
  -- the batch that was executed tentatively, or the one of the event
  set b' := s.pending.getD b with hb'
  have hw' : EventWellFormed A (.committed b) → Tidy A s → ∀ q ∈ b'.requests, WellFormed A q := by
    intro hw ht
    cases hp : s.pending with
    | none => rwa [hb', hp]
    | some c =>
      rw [hb', hp]
      exact ht.wellFormed c hp
  refine Prog.Ensures.bind (Q := fun _ t => Inv t ∧ Ran A s t ∧
    (EventWellFormed A (.committed b) → Tidy A s → Tidy A t ∧
    ∀ q ∈ b'.requests, q.rid ≠ 0 ∧ q.rid ≤ (t.mem.slots q.cid).rid)) ?_ fun _ t ht => ?_
  · refine ((executePrepared_ensures hi.clean hi.bounded true).mono
      fun _ t ht => ?_).weaken (fun _ _ h => h) fun _ t ht => ?_
    · rcases ht with ⟨hlt, rfl⟩ | ht
      · refine ⟨hi, .of_mem rfl rfl, fun hw htidy =>
          ⟨htidy, fun q hq => ⟨(hw' hw htidy q hq).1, ?_⟩⟩⟩
        obtain ⟨c, hc, hdone⟩ := htidy.done hlt
        have : b' = c := by rw [hb', hc]; rfl
        exact hdone q (this ▸ hq)
      · refine ⟨ht.inv hi, ht.ran, fun hw htidy =>
          ⟨ht.tidy (hw' hw htidy) htidy, fun q hq => ⟨(hw' hw htidy q hq).1, ?_⟩⟩⟩
        rw [ht.mem]
        exact foldl_done b'.requests (hw' hw htidy) s.mem q hq
    · exact ⟨ht.1, fun hw htidy => ht.2 htidy.ready (hw' hw htidy)⟩
  · obtain ⟨hit, hran, htidy⟩ := ht
    refine Prog.Reaches.modify_bind trivial
      (Prog.Reaches.assert_bind ⟨hit.bounded.increasing, fun hw h =>
      (htidy hw h).1.ready.matched⟩ fun _ => ?_)
    refine ((commits_ensures b'.requests (A := A) (o := o) ?_).mono
      fun _ u hu => ?_).weaken (fun _ _ h => h)
      fun _ u hu => ?_
    · exact hit.clean
    · obtain ⟨hf, hmem, hready⟩ := hu
      have hle : u.lastTentative ≤ u.lastExecuted := by
        rw [hf.lastTentative, hf.lastExecuted]
        exact hit.window
      refine ⟨⟨hmem ▸ hit.clean, hmem ▸ hit.bounded, hf.saved ▸ hit.cleanSaved,
        hf.saved ▸ hit.boundedSaved, by omega⟩,
        fun hw h => ?_, ?_⟩
      · obtain ⟨hr, hdone⟩ := htidy hw h
        have hru : Ready u := hready ⟨hr.ready.1, hr.ready.2, hr.ready.3⟩ hdone
        refine ⟨hru, by rw [hf.saved]; exact hr.saved, fun c hc => ?_, fun hlt => ?_⟩
        · rw [hf.pending] at hc
          cases hc
        · omega
      · obtain ⟨bs, h1, h2⟩ := hran
        exact ⟨bs, hf.executed.trans h1, hmem.trans h2⟩
    · refine ⟨?_, fun hw h => ?_⟩
      · rw [hu.1]
        exact hit.bounded.increasing
      · obtain ⟨hr, hdone⟩ := htidy hw h
        exact hu.2 ⟨hr.ready.1, hr.ready.2, hr.ready.3⟩ hdone

theorem handle_ensures (hi : Inv s) : Prog.Ensures (handle A id o e) s
    (fun _ t => Inv t ∧ (EventWellFormed A e → Tidy A s → Tidy A t) ∧ (e ≠ .rollback → Ran A s t))
    (fun t => Increasing t.mem.applied ∧ (EventWellFormed A e → Tidy A s → Matched t.calls)) := by
  cases e with
  | request q =>
    refine Prog.Reaches.get_bind (Prog.Reaches.when (fun heq => ?_)
      fun _ => ⟨hi, fun _ h => h, fun _ => .of_mem rfl rfl⟩)
    have heq : (s.mem.slots q.cid).rid = q.rid := by simpa using heq
    refine ((sendReply_ensures (hi.clean q.cid) true).mono fun _ t ht => ?_).weaken (fun _ _ h => h)
      fun _ t ht => ?_
    · obtain ⟨hf, hcalls, hmem, hb⟩ := ht
      have hwindow : t.lastTentative ≤ t.lastExecuted + 1 := by
        rw [hf.lastTentative, hf.lastExecuted]
        exact hi.window
      refine ⟨⟨hmem ▸ hi.clean, hmem ▸ hi.bounded, hf.saved ▸ hi.cleanSaved,
        hf.saved ▸ hi.boundedSaved, hwindow⟩,
        fun _ h => ⟨⟨hmem ▸ h.ready.finished, ?_, fun p => ?_⟩, hf.saved ▸ h.saved, ?_, ?_⟩,
          fun _ => .of_mem hf.executed hmem⟩
      · rw [hcalls]
        exact ⟨hb, h.ready.begun _, h.ready.matched⟩
      · rw [hcalls]
        exact h.ready.begun p
      · rw [hf.pending]
        exact h.wellFormed
      · rw [hf.lastExecuted, hf.lastTentative, hf.pending, hmem]
        exact h.done
    · refine ⟨by rw [ht.1]; exact hi.bounded.increasing, fun hw h => ?_⟩
      have hb : (s.mem.slots q.cid).Built :=
        ⟨h.ready.finished _ (heq ▸ hw), (hi.clean _).extra, (hi.clean _).v, (hi.clean _).replica⟩
      rw [ht.2.2]
      exact ⟨hb, h.ready.begun _, h.ready.matched⟩
  | prepared b =>
    refine ((executePrepared_ensures hi.clean hi.bounded false).mono
      fun _ t ht => ?_).weaken (fun _ _ h => h) fun _ t ht =>
      ⟨ht.1, fun hw h => ht.2 h.ready hw⟩
    rcases ht with ⟨-, rfl⟩ | ht
    · exact ⟨hi, fun _ h => h, fun _ => .of_mem rfl rfl⟩
    · exact ⟨ht.inv hi, fun hw h => ht.tidy hw h, fun _ => ht.ran⟩
  | committed b =>
    exact (executeCommitted_ensures hi).mono fun _ t ht => ⟨ht.1, ht.2.1, fun _ => ht.2.2⟩
  | rollback =>
    refine Prog.Reaches.get_bind
      (Prog.Reaches.assert_bind ⟨hi.bounded.increasing, fun _ h => h.ready.matched⟩ fun _ =>
      Prog.Reaches.modify trivial
        ⟨⟨hi.cleanSaved, hi.boundedSaved, hi.cleanSaved, hi.boundedSaved, ?_⟩, fun _ h => ?_,
        fun hne => absurd rfl hne⟩)
    · change s.lc ≤ s.lc + 1
      omega
    · exact ⟨⟨h.saved, h.ready.matched, h.ready.begun⟩,
        h.saved, fun _ hb => (by cases hb), fun hlt => absurd hlt (Int.lt_irrefl _)⟩
  | checkpoint =>
    refine Prog.Reaches.get_bind
      (Prog.Reaches.when (fun hle => Prog.Reaches.modify trivial ?_) fun _ =>
      ⟨hi, fun _ h => h, fun _ => .of_mem rfl rfl⟩)
    exact ⟨⟨hi.clean, hi.bounded, hi.clean, hi.bounded, hi.window⟩,
      fun _ h => ⟨⟨h.ready.1, h.ready.2, h.ready.3⟩,
      h.ready.finished, h.wellFormed, h.done⟩, fun _ => .of_mem rfl rfl⟩

/-! ## Runs -/

theorem step_of_halted (h : s.halted = true) (oe : Occasion × ExecEvent) : step A id s oe = s := by
  unfold step
  rw [if_pos h]

/-- A step that goes on: what its handler ensures. -/
theorem step_goes_on {oe : Occasion × ExecEvent}
    (hs : (step A id s oe).halted = false) (hi : Inv s) :
    Inv (step A id s oe) ∧ (EventWellFormed A oe.2 → Tidy A s → Tidy A (step A id s oe)) ∧
      (oe.2 ≠ .rollback → Ran A s (step A id s oe)) := by
  have hh : s.halted = false := by
    by_contra hne
    have hne : s.halted = true := by simpa using hne
    rw [step_of_halted hne, hne] at hs
    cases hs
  have hstep : step A id s oe = { (handle A id oe.1 oe.2 s).2 with
    halted := (handle A id oe.1 oe.2 s).1.isNone } := by
    unfold step
    rw [if_neg (by simp [hh])]
  rw [hstep] at hs ⊢
  have hsome : ∃ u, (handle A id oe.1 oe.2 s).1 = some u := by
    cases hr : (handle A id oe.1 oe.2 s).1 with
    | none =>
      rw [hr] at hs
      cases hs
    | some u => exact ⟨u, rfl⟩
  obtain ⟨u, hu⟩ := hsome
  obtain ⟨h1, h2, h3⟩ := (handle_ensures (o := oe.1) (e := oe.2) hi).result.1 u hu
  refine ⟨⟨h1.1, h1.2, h1.3, h1.4, h1.5⟩, fun hw h => ?_, h3⟩
  have := h2 hw h
  exact ⟨⟨this.ready.1, this.ready.2, this.ready.3⟩, this.2, this.3, this.4⟩

theorem step_stops {oe : Occasion × ExecEvent} (hh : s.halted = false)
    (hs : (step A id s oe).halted = true) (hi : Inv s) :
    Increasing (step A id s oe).mem.applied ∧
      (EventWellFormed A oe.2 → Tidy A s → Matched (step A id s oe).calls) := by
  have hstep : step A id s oe = { (handle A id oe.1 oe.2 s).2 with
    halted := (handle A id oe.1 oe.2 s).1.isNone } := by
    unfold step
    rw [if_neg (by simp [hh])]
  rw [hstep] at hs ⊢
  exact (handle_ensures (o := oe.1) (e := oe.2) hi).result.2 (by simpa using hs)

theorem newSlot_clean : Clean ReplySlot.new := ⟨rfl, rfl, rfl, fun h => absurd rfl h⟩

theorem newMem_bounded : Bounded (newMem A) := ⟨.nil, by simp [newMem]⟩

theorem reach_inv {ok : ExecEvent → Prop} (h : Reach A ok id s) :
    (s.halted = false → Inv s) ∧ Increasing s.mem.applied := by
  induction h with
  | start id =>
    exact ⟨fun _ => ⟨fun _ => newSlot_clean, newMem_bounded, fun _ => newSlot_clean, newMem_bounded,
      (by simp [new])⟩, .nil⟩
  | @step id s o e h he ih =>
    by_cases hs : s.halted = true
    · rw [step_of_halted hs]
      exact ih
    · have hs : s.halted = false := by simpa using hs
      have hi := ih.1 hs
      by_cases ht : (step A id s (o, e)).halted = true
      · exact ⟨fun hf => (by rw [hf] at ht; cases ht), (step_stops hs ht hi).1⟩
      · have ht : (step A id s (o, e)).halted = false := by simpa using ht
        exact ⟨fun _ => (step_goes_on ht hi).1, (step_goes_on ht hi).1.bounded.increasing⟩
  | @fetch id id' s t h h' hs ht ih ih' =>
    have hi := ih'.1 ht
    refine ⟨fun _ => ⟨hi.cleanSaved, hi.boundedSaved, hi.cleanSaved, hi.boundedSaved, ?_⟩,
      hi.boundedSaved.increasing⟩
    change t.lc ≤ t.lc + 1
    omega

theorem reach_tidy (h : Reach A (EventWellFormed A) id s) :
    (s.halted = false → Tidy A s) ∧ Matched s.calls := by
  induction h with
  | start id =>
    have hf : Finished (newMem A) := fun _ h => absurd rfl h
    refine ⟨fun _ => ⟨⟨hf, trivial, fun _ => rfl⟩,
      hf, fun _ hb => (by cases hb), fun hlt => absurd hlt (Int.lt_irrefl _)⟩,
      trivial⟩
  | @step id s o e h he ih =>
    by_cases hs : s.halted = true
    · rw [step_of_halted hs]
      exact ih
    · have hs : s.halted = false := by simpa using hs
      have hi := (reach_inv h).1 hs
      by_cases ht : (step A id s (o, e)).halted = true
      · exact ⟨fun hf => (by rw [hf] at ht; cases ht), (step_stops hs ht hi).2 he (ih.1 hs)⟩
      · have ht : (step A id s (o, e)).halted = false := by simpa using ht
        have := (step_goes_on ht hi).2.1 he (ih.1 hs)
        exact ⟨fun _ => this, this.ready.matched⟩
  | @fetch id id' s t h h' hs ht ih ih' =>
    have htidy := ih.1 hs
    have hsaved := (ih'.1 ht).saved
    exact ⟨fun _ => ⟨⟨hsaved, htidy.ready.matched, htidy.ready.begun⟩,
      hsaved, fun _ hb => (by cases hb),
      fun hlt => absurd hlt (Int.lt_irrefl _)⟩, ih.2⟩

end Handlers

/-! ## At most once -/

/-- **At-most-once execution.** In every state of every run the requests that `exec_command` was
applied to, on the way to that state, are all different, and the request ids of each client
increase. -/
theorem applied_at_most_once {id : Nat} {s : Exec σ} (h : Reach A (fun _ => True) id s) :
    s.mem.applied.Nodup ∧
      s.mem.applied.Pairwise fun later earlier => later.1 = earlier.1 → earlier.2 < later.2 := by
  have hinc := (reach_inv h).2
  refine ⟨hinc.imp fun {a b} hab heq => ?_, hinc⟩
  have := hab (congrArg Prod.fst heq)
  rw [heq] at this
  exact Nat.lt_irrefl _ this

/-- A service that counts its requests and answers with one byte. -/
def counter : App Nat where
  init := 0
  exec n _ _ _ _ := (n + 1, fun _ => 7, 1)
  digest _ := 0
  mac _ _ := List.replicate macSize 1
  mac_length _ _ := List.length_replicate
  numReplicas := 4
  nps := 10
  ckptInterval := 2

def quiet : Occasion := ⟨0, fun _ => 0, fun _ => true⟩

/-- A batch with one request twice, and with the next one. -/
def twice : Batch :=
  ⟨1, [⟨5, 1, false, -1, [1]⟩, ⟨5, 1, false, -1, [1]⟩, ⟨5, 2, false, -1, [1]⟩], []⟩

/-- It is executed tentatively and committed, and a request is sent again; then the same requests
come once more. -/
def twiceRun : List (Occasion × ExecEvent) :=
  [(quiet, .prepared twice), (quiet, .committed twice), (quiet, .request ⟨5, 2, false, -1, [1]⟩),
    (quiet, .prepared { twice with seqno := 2 })]

/-- The state after a list of events. -/
def runFrom (A : App σ) (id : Nat) (s : Exec σ) (es : List (Occasion × ExecEvent)) : Exec σ :=
  es.foldl (step A id) s

theorem reach_runFrom {ok : ExecEvent → Prop} {es : List (Occasion × ExecEvent)}
    (h : Reach A ok id s) (hes : ∀ oe ∈ es, ok oe.2) : Reach A ok id (runFrom A id s es) := by
  induction es generalizing s with
  | nil => exact h
  | cons oe es ih =>
    exact ih (.step oe.1 oe.2 h (hes oe (by simp))) fun oe' h' => hes oe' (by simp [h'])

theorem applied_at_most_once_twice :
    (runFrom counter 1 (new counter) twiceRun).mem.applied = [(5, 2), (5, 1)] ∧
      (runFrom counter 1 (new counter) twiceRun).mem.applied.Nodup :=
  ⟨by decide +kernel, (applied_at_most_once (reach_runFrom (.start 1) fun _ _ => trivial)).1⟩

/-! ## Replies are finished before they are used -/

theorem matched_uses {cs : List RepCall} (h : Matched cs) {slot : ReplySlot}
    (hmem : .use pid slot ∈ cs) : slot.Built := by
  induction cs with
  | nil => simp at hmem
  | cons c cs ih =>
    rcases List.mem_cons.1 hmem with rfl | hin
    · exact h.1
    · cases c with
      | newReply => exact ih h.2 hin
      | endReply => exact ih h.2 hin
      | use => exact ih h.2.2 hin

/-- **No half-built reply is sent**, in every run whose requests have an id above zero and whose
recovery requests from replicas hold a sequence number: every reply that is used is finished and has
no stamps, and every `new_reply` is followed by its `end_reply` before the slot is used again, up to
the state reached. -/
theorem replies_built {id : Nat} {s : Exec σ} (h : Reach A (EventWellFormed A) id s) :
    (∀ pid slot, .use pid slot ∈ s.calls → slot.Built) ∧ Matched s.calls ∧
      (s.halted = false → ∀ pid, begun pid s.calls = false) := by
  obtain ⟨h1, h2⟩ := reach_tidy h
  exact ⟨fun _ _ hmem => matched_uses h2 hmem, h2, fun hs => (h1 hs).ready.begun⟩

theorem replies_built_twice : begun 5 (runFrom counter 1 (new counter) twiceRun).calls = false := by
  refine (replies_built (A := counter) (reach_runFrom (.start 1) fun oe hoe => ?_)).2.2
    (by decide +kernel) 5
  simp only [twiceRun, List.mem_cons, List.not_mem_nil, or_false] at hoe
  rcases hoe with rfl | rfl | rfl | rfl <;> simp [EventWellFormed, twice, WellFormed]

/-- A recovery request of replica 2 without a sequence number. -/
def badRecovery : Batch := ⟨1, [⟨2, 1, true, -1, []⟩], []⟩

/-- A request with id 0 finds the slot of new memory; a malformed recovery request leaves the slot
begun, and `execute_committed` sends it. -/
theorem replies_not_built :
    (∃ slot, (runFrom counter 1 (new counter) [(quiet, .request ⟨5, 0, false, -1, []⟩)]).calls =
        [.use 5 slot] ∧ ¬slot.Built) ∧
    (∃ slot, (runFrom counter 1 (new counter) [(quiet, .prepared badRecovery),
          (quiet, .committed badRecovery)]).calls =
      [.use 2 slot, .newReply 2] ∧ ¬slot.Built) :=
  ⟨⟨_, rfl, by decide⟩, ⟨_, rfl, by decide⟩⟩

/-! ## The memory does not depend on the replica -/

theorem runFrom_halted {es : List (Occasion × ExecEvent)} (h : (runFrom A id s es).halted = false) :
    s.halted = false := by
  induction es generalizing s with
  | nil => exact h
  | cons oe es ih =>
    have := ih (s := step A id s oe) h
    by_contra hne
    have hne : s.halted = true := by simpa using hne
    rw [step_of_halted hne, hne] at this
    cases this

/-- A run without rollbacks that goes on: its memory is what the batches that it executed make of
the first one. -/
theorem runFrom_ran {es : List (Occasion × ExecEvent)} (hi : Inv s)
    (hes : ∀ oe ∈ es, oe.2 ≠ .rollback) (h : (runFrom A id s es).halted = false) :
    Inv (runFrom A id s es) ∧ Ran A s (runFrom A id s es) := by
  induction es generalizing s with
  | nil => exact ⟨hi, .of_mem rfl rfl⟩
  | cons oe es ih =>
    obtain ⟨h1, -, h3⟩ := step_goes_on (runFrom_halted h) hi
    obtain ⟨h4, bs, h5, h6⟩ := ih h1 (fun oe' h' => hes oe' (by simp [h'])) h
    obtain ⟨cs, h7, h8⟩ := h3 (hes oe (by simp))
    refine ⟨h4, bs ++ cs, ?_, ?_⟩
    · change (runFrom A id (step A id s oe) es).executed = _
      rw [h5, h7, List.append_assoc]
    · change (runFrom A id (step A id s oe) es).mem = _
      rw [h6, h8, List.foldr_append]

/-- **Replica-independent state.** Two replicas, whatever their ids, that have the same memory, and
then execute the same batches, have the same memory afterwards: whatever the views and the clocks,
whether a batch was executed tentatively or on commit, and whatever requests came again in between.
And whenever `send_reply` returns the memory is as it was. -/
theorem replicated_memory {id₁ id₂ : Nat} {s₁ s₂ : Exec σ} {ok₁ ok₂ : ExecEvent → Prop}
    (h₁ : Reach A ok₁ id₁ s₁) (h₂ : Reach A ok₂ id₂ s₂) (hmem : s₁.mem = s₂.mem)
    {es₁ es₂ : List (Occasion × ExecEvent)} (hes₁ : ∀ oe ∈ es₁, oe.2 ≠ .rollback)
    (hes₂ : ∀ oe ∈ es₂, oe.2 ≠ .rollback) (hh₁ : (runFrom A id₁ s₁ es₁).halted = false)
    (hh₂ : (runFrom A id₂ s₂ es₂).halted = false)
    {bs : List Batch} (hb₁ : (runFrom A id₁ s₁ es₁).executed = bs ++ s₁.executed)
    (hb₂ : (runFrom A id₂ s₂ es₂).executed = bs ++ s₂.executed) :
    (runFrom A id₁ s₁ es₁).mem = (runFrom A id₂ s₂ es₂).mem ∧
      ∀ o pid tent, (sendReply A id₁ o pid tent s₁).1.isSome →
        (sendReply A id₁ o pid tent s₁).2.mem = s₁.mem := by
  have hi₁ := (reach_inv h₁).1 (runFrom_halted hh₁)
  have hi₂ := (reach_inv h₂).1 (runFrom_halted hh₂)
  refine ⟨?_, fun o pid tent hsome => ?_⟩
  · obtain ⟨-, cs₁, hc₁, hm₁⟩ := runFrom_ran hi₁ hes₁ hh₁
    obtain ⟨-, cs₂, hc₂, hm₂⟩ := runFrom_ran hi₂ hes₂ hh₂
    have e₁ : cs₁ = bs := List.append_cancel_right (hc₁.symm.trans hb₁)
    have e₂ : cs₂ = bs := List.append_cancel_right (hc₂.symm.trans hb₂)
    rw [hm₁, hm₂, e₁, e₂, hmem]
  · obtain ⟨u, hu⟩ := Option.isSome_iff_exists.1 hsome
    exact ((sendReply_ensures (hi₁.clean pid) tent).result.1 u hu).2.2.1

/-- One replica executes the batch when it is committed, the other one before that, in another view
and with a request sent again. -/
theorem replicated_memory_counter :
    (runFrom counter 1 (new counter) [(quiet, .committed twice)]).mem =
      (runFrom counter 2 (new counter) [({ quiet with view := 3 }, .prepared twice),
        (quiet, .request ⟨5, 2, false, -1, [1]⟩)]).mem :=
  have start (id : Nat) : Reach counter (fun _ => True) id (new counter) := .start id
  (@replicated_memory Nat counter 1 2 _ _ _ _ (start 1)
    (start 2) rfl _ _ (by simp) (by simp) (by decide +kernel)
    (by decide +kernel) [twice] (by decide +kernel) (by decide +kernel)).1

end Exec

end TinyBFT
