import TinyBFT.NVInfo
import TinyBFT.Log

/-!
# `View_info` (`View_info.h`, `View_info.cc`): what a replica remembers across views

| here | there |
| --- | --- |
| `Msg`, `Out`     | the messages a replica sends, and to whom (`none` is `All_replicas`) |
| `ODigestInfo`, `OReqInfo`, `VCAInfo` | `View_info.h:132-180` |
| `ViewInfo`       | the fields of `View_info` |
| `addComplete`, `addIncomplete`, `remember` | `View_info.cc:60-117`, the last being the loop over `ods` |
| `prePrepareOf`, `prePrepareSince` | `pre_prepare(n, d)`, `pre_prepare(n, v)` (`View_info.cc:134-155`) |
| `prepareOf` | `prepare` (`View_info.cc:157-172`) |
| `buildViewChange`, `viewChange`, `discardOld` | `view_change`, `discard_old` (`View_info.cc:174-286`) |
| `addViewChange`, `addNewView`, `addAck` | the three `add` (`View_info.cc:288-403`) with their `int` views |
| `maxView`, `maxMajView` | `max_view`, `max_maj_view` |
| `markStable`, `markStale` | `mark_stable`, `mark_stale` |

What an operation sends, and what the `NV_info`s ask of the replica, is collected in `outs` in
order. The block in which a view-change is built holds arbitrary data before (`word`, `entry`). In
the static build the acknowledgements that `view_change` sends carry the digest of the replica's own
message.

Messages are values: each pointer has its own one, as in the heap build. In the static build the
view-changes of replica `i` share the block `special_region::view_changes[i]`, which is added in
`Acks.lean`, and `persist` asserts `in_scratch_`, which does not hold of a message that is moved
from `last_vcs`.
-/

namespace TinyBFT

inductive Msg
  | prePrepare (m : PrePrepareMsg)
  | prepare (p : Prepare)
  | commit (c : Commit)
  | checkpoint (c : Checkpoint)
  | viewChange (m : ViewChange)
  | newView (m : NewView)
  | ack (m : ViewChangeAck)
  | status
  | newKey

/-- A message and its destination, or a call of the replica. -/
inductive Out
  | send (dest : Option Nat) (m : Msg)
  | call (c : NVCall)

structure ODigestInfo where
  d : Digest
  v : Int
deriving DecidableEq, Repr

structure OReqInfo where
  lv : Int
  v : Int
  d : Digest
  m : Option PrePrepareMsg
  ods : List ODigestInfo
deriving DecidableEq, Repr

structure VCAInfo where
  v : Int
  vacks : Nat → Option ViewChangeAck

structure ViewInfo where
  v : Int
  lastStable : Int
  oplog : Log OReqInfo
  lastViews : Nat → Int
  lastVcs : Nat → Option ViewChange
  myVacks : Nat → Option ViewChangeAck
  vacks : Nat → VCAInfo
  lastNvs : Nat → NVInfo
  outs : List Out

namespace OReqInfo

def new (f : Nat) : OReqInfo := ⟨-1, -1, 0, none, List.replicate (f + 2) ⟨0, -1⟩⟩

/-- `clear`: the old digests stay, with view `-1`. -/
def clear (ri : OReqInfo) : OReqInfo := ⟨-1, -1, 0, none, ri.ods.map fun o => { o with v := -1 }⟩

/-- `add_complete`. -/
def addComplete (ri : OReqInfo) (pp : PrePrepareMsg) : OReqInfo :=
  { ri.clear with v := pp.view, lv := pp.view, d := pp.digest, m := some pp }

/-- The index of the first old digest with the smallest view below `minv`. -/
def oldest : List ODigestInfo → Nat → Nat → Int → Nat
  | [], _, mini, _ => mini
  | o :: os, i, mini, minv =>
    if o.v < minv then oldest os (i + 1) i o.v else oldest os (i + 1) mini minv

/-- Remember the digest `d`, last sent in view `lv`: in its own place, or in that of the oldest
one. -/
def remember (ods : List ODigestInfo) (d : Digest) (lv : Int) : List ODigestInfo :=
  match ods.findIdx? fun o => o.d == d with
  | some i => ods.modify i fun o => { o with v := lv }
  | none => ods.set (oldest ods 0 0 seqnoMax) ⟨d, lv⟩

/-- `add_incomplete` in view `v`. -/
def addIncomplete (ri : OReqInfo) (v : Int) (d : Digest) : OReqInfo :=
  if ri.d = d then if ri.m.isSome then { ri with lv := v } else { ri with v := v }
  else
    let lv := if ri.m.isSome then ri.lv else ri.v
    { lv, v, d, m := none, ods := remember ri.ods ri.d lv }

end OReqInfo

namespace ViewInfo

open Prog (get modify assert ofOption when each)

variable (cfg : Cfg) (id : Nat)

def new : ViewInfo where
  v := 0
  lastStable := 0
  oplog := ⟨1, fun _ => OReqInfo.new cfg.f⟩
  lastViews := fun _ => 0
  lastVcs := fun _ => none
  myVacks := fun _ => none
  vacks := fun _ => ⟨0, fun _ => none⟩
  lastNvs := fun _ => NVInfo.new
  outs := []

def noAcks : VCAInfo := ⟨0, fun _ => none⟩

def hasNewView (s : ViewInfo) (v : Int) : Bool := (s.lastNvs (cfg.primary v)).isComplete

/-! ## The log of past requests -/

def addComplete (pp : PrePrepareMsg) : Prog ViewInfo Unit := do
  let s ← get
  assert (pp.view == s.v)
  let ri ← ofOption (s.oplog.fetch cfg.P.maxOut pp.seqno)
  assert (decide (0 ≤ pp.view ∧ ri.v < pp.view))
  modify fun s => { s with oplog := s.oplog.set cfg.P.maxOut pp.seqno (ri.addComplete pp) }

def addIncomplete (n : Int) (d : Digest) : Prog ViewInfo Unit := do
  let s ← get
  let ri ← ofOption (s.oplog.fetch cfg.P.maxOut n)
  modify fun s => { s with oplog := s.oplog.set cfg.P.maxOut n (ri.addIncomplete s.v d) }

/-- `pre_prepare(n, d)`; `none` if its assertion fails. -/
def prePrepareOf (s : ViewInfo) (n : Int) (d : Digest) : Option (Option PrePrepareMsg) :=
  match s.oplog.fetch cfg.P.maxOut n with
  | none => some none
  | some ri =>
    match ri.m with
    | none => some none
    | some m =>
      if ri.d = d then if m.digest = ri.d ∧ m.seqno = n then some (some m) else none else some none

/-- `pre_prepare(n, v)`. -/
def prePrepareSince (s : ViewInfo) (n v : Int) : Option (Option PrePrepareMsg) :=
  match s.oplog.fetch cfg.P.maxOut n with
  | none => some none
  | some ri =>
    match ri.m with
    | none => some none
    | some m => if v ≤ ri.v then if m.seqno = n then some (some m) else none else some none

/-- `prepare(n, d)`. -/
def prepareOf (s : ViewInfo) (n : Int) (d : Digest) : Bool :=
  match s.oplog.fetch cfg.P.maxOut n with
  | none => false
  | some ri => ri.d == d || ri.ods.any fun o => o.d == d

/-- `send_proofs`. -/
def sendProofs (n v : Int) (dest : Nat) : Prog ViewInfo Unit := modify fun s =>
  match s.oplog.fetch cfg.P.maxOut n with
  | none => s
  | some ri => { s with
      outs := s.outs ++ (ri.ods.filter fun o => v ≤ o.v).map
        fun o => .send (some dest) (.prepare ⟨o.v, n, o.d, id, true⟩) }

/-! ## The `NV_info`s -/

def nvEnv (s : ViewInfo) : NVEnv := ⟨cfg, id, s.prePrepareOf cfg, s.prepareOf cfg⟩

/-- Run an operation of the `NV_info` of replica `j`. -/
def onNv {α : Type} (j : Nat) (op : NVEnv → Prog NVInfo α) : Prog ViewInfo α := fun s =>
  let r := op (s.nvEnv cfg id) (s.lastNvs j)
  (r.1, { s with
    lastNvs := Function.update s.lastNvs j { r.2 with calls := [] }, outs :=
      s.outs ++ r.2.calls.map .call })

def out (o : Out) : Prog ViewInfo Unit := modify fun s => { s with outs := s.outs ++ [o] }

/-! ## View changes -/

def discardOld (s : ViewInfo) : ViewInfo :=
  { s with
    lastVcs := fun i => (s.lastVcs i).filter fun vc => decide (s.v ≤ vc.v)
    myVacks := fun _ => none
    vacks := fun i => if (s.vacks i).v < s.v then { noAcks with v := s.v } else s.vacks i
    lastNvs := fun i => if (s.lastNvs i).v < s.v then (s.lastNvs i).clear else s.lastNvs i }

/-- The block in which a view-change is built. -/
def buffer (word : Nat → BitVec 64) (entry : Nat → ReqInfo) : ViewChange.Buffer cfg.P where
  prepared := (List.range (ViewChange.preparedSize cfg.P)).map word
  reqInfo := (List.range cfg.P.maxOut).map entry
  prepared_length := by simp
  reqInfo_length := by simp

/-- The checkpoints that are added: `digest` is `state->digest`. -/
def ckptAdds (s : ViewInfo) (lastExecuted : Int) (digest : Int → Option Digest) :
    List ViewChange.Add :=
  (List.range ((lastExecuted - s.lastStable) / cfg.P.ckptInterval + 1).toNat).filterMap fun k :
    Nat =>
    let n : Int := s.lastStable + k * cfg.P.ckptInterval
    (digest n).map (.checkpoint n)

/-- The requests that are added: null requests are not. -/
def reqAdds (s : ViewInfo) : List ViewChange.Add :=
  (intRange (s.lastStable + 1) (s.lastStable + cfg.P.maxOut + 1)).filterMap fun n =>
    let ri := s.oplog.entry cfg.P.maxOut n
    if 0 ≤ ri.v then some (.request n ri.v ri.lv ri.d ri.m.isSome) else none

/-- The assertions of `re_authenticate` (`View_change.cc:130-140`). -/
def vcOk (vc : ViewChange) : Bool :=
  decide (vc.nReqs ≤ cfg.P.maxOut ∧ 0 < vc.v ∧ vc.nCkpts ≤ cfg.P.maxOut / cfg.P.ckptInterval + 1 ∧
    (vc.nCkpts = 0 ∨ vc.ckpts.getD (vc.nCkpts - 1) 0 ≠ 0) ∧
      0 ≤ vc.ls ∧ vc.ls % cfg.P.ckptInterval = 0)

/-- The view-change message for the current view. -/
def buildViewChange (s : ViewInfo) (word : Nat → BitVec 64) (entry : Nat → ReqInfo)
    (lastExecuted : Int) (digest : Int → Option Digest) : Option ViewChange := do
  if s.oplog.head ≠ s.lastStable + 1 then none
  else
    let vc ← ViewChange.build cfg.P (buffer cfg word entry) s.v s.lastStable id
      (s.ckptAdds cfg lastExecuted digest ++ s.reqAdds cfg)
    if vcOk cfg vc then some vc else none

/-- Acknowledge the view-change of replica `i`; `vc` is the replica's own one. -/
def ackOther (vc : ViewChange) (i : Nat) : Prog ViewInfo Unit := do
  let s ← get
  match s.lastVcs i with
  | none => pure ()
  | some lvc =>
    when (lvc.v == s.v && i != id && i != cfg.primary s.v) do
      let vack : ViewChangeAck := ⟨s.v, id, i, cfg.vcDigest (if cfg.staticLog then vc else lvc)⟩
      modify fun s => { s with myVacks := Function.update s.myVacks i (some vack) }
      out (.send (some (cfg.primary s.v)) (.ack vack))

/-- Move the view-change of replica `i` for view `v` to the `NV_info` of `j`. -/
def moveVC (j : Nat) (v : Int) (i : Nat) : Prog ViewInfo Unit := do
  let s ← get
  match s.lastVcs i with
  | none => pure ()
  | some vc =>
    when (vc.v == v) do
      let added ← onNv cfg id j fun V => NVInfo.addViewChange V vc true true
      when added (modify fun s => { s with lastVcs := Function.update s.lastVcs i none })

/-- Move the acknowledgement of replica `i` about replica `j`. -/
def moveAck (i j : Nat) : Prog ViewInfo Unit := do
  let s ← get
  match (s.vacks i).vacks j with
  | none => pure ()
  | some ack =>
    when ((s.vacks i).v == s.v) do
      let added ← onNv cfg id (cfg.primary s.v) fun V => NVInfo.addAck V ack
      when added (modify fun s => { s with
        vacks := Function.update s.vacks i { s.vacks i with
          vacks := Function.update (s.vacks i).vacks j none } })

/-- The primary starts the `NV_info` of its view. -/
def startNewView : Prog ViewInfo Unit := do
  let s ← get
  assert (decide ((s.lastNvs id).v ≤ s.v))
  let _ ← onNv cfg id id fun V => NVInfo.addNewView V (NewView.new s.v)
  each (moveVC cfg id id s.v) (List.range cfg.n)
  each (fun i => each (moveAck cfg id i) (List.range cfg.n)) (List.range cfg.n)

def viewChange (v lastExecuted : Int) (word : Nat → BitVec 64) (entry : Nat → ReqInfo)
    (digest : Int → Option Digest) :
    Prog ViewInfo Unit := do
  modify fun s => discardOld { s with v }
  let s ← get
  let vc ← ofOption (s.buildViewChange cfg id word entry lastExecuted digest)
  out (.send none (.viewChange vc))
  modify fun s => { s with
    lastVcs := Function.update s.lastVcs id (some vc), lastViews :=
      Function.update s.lastViews id v }
  if cfg.primary v = id then startNewView cfg id else each (ackOther cfg id vc) (List.range cfg.n)

/-- A view-change for which there is no new-view message yet. -/
def storeViewChange (vc : ViewChange) (vcv : Int) : Prog ViewInfo Unit := do
  modify fun s => { s with
    lastVcs := Function.update s.lastVcs vc.id (some vc), lastViews :=
      Function.update s.lastViews vc.id vcv }
  let s ← get
  when (id != cfg.primary s.v && vc.id != cfg.primary s.v && vcv == s.v) do
    let vack : ViewChangeAck := ⟨s.v, id, vc.id, cfg.vcDigest vc⟩
    assert (s.myVacks vc.id).isNone
    modify fun s => { s with myVacks := Function.update s.myVacks vc.id (some vack) }
    out (.send (some (cfg.primary s.v)) (.ack vack))

/-- A view-change for which there is a new-view message. -/
def matchViewChange (vc : ViewChange) (vcv : Int) (verified digestOk : Bool) :
    Prog ViewInfo Bool := do
  let stored ← onNv cfg id (cfg.primary vcv) fun V => NVInfo.addViewChange V vc verified digestOk
  let s ← get
  when (stored && id == cfg.primary s.v && vcv == s.v)
    (each (fun i => moveAck cfg id i vc.id) (List.range cfg.n))
  modify fun s =>
    if verified && s.lastViews vc.id < vcv then
      { s with lastViews := Function.update s.lastViews vc.id vcv } else s
  pure stored

/-- `add(View_change*)`. -/
def addViewChange (vc : ViewChange) (verified digestOk : Bool) : Prog ViewInfo Bool := do
  let s ← get
  let vcv := toInt vc.v
  if vcv < s.v then pure false
  else if (s.lastNvs (cfg.primary vcv)).v = vcv then matchViewChange cfg id vc vcv verified digestOk
  else do
    assert (decide (vc.id < cfg.n))
    if s.lastViews vc.id < vcv && verified then do
      storeViewChange cfg id vc vcv
      pure true
    else pure false

/-- `add(New_view*)`; `verified` is what `verify` returns. -/
def addNewView (nv : NewView) (verified : Bool) : Prog ViewInfo Unit := do
  let s ← get
  let nvv := toInt nv.v
  when (decide (s.v ≤ nvv) && verified && decide ((s.lastNvs (nv.id cfg)).v < nv.v)) do
    let stored ← onNv cfg id (nv.id cfg) fun V => NVInfo.addNewView V nv
    when stored (each (moveVC cfg id (nv.id cfg) nvv) (List.range cfg.n))

/-- Keep an acknowledgement for a later view. The entry is filed under the current view `v`. -/
def storeAck (vca : ViewChangeAck) (vcv : Int) (s : ViewInfo) : ViewInfo :=
  let vcai := s.vacks vca.id
  if vcai.v ≤ vcv then
    let vcai := if vcai.v < vcv then noAcks else vcai
    { s with
      vacks :=
        Function.update s.vacks vca.id ⟨s.v, Function.update vcai.vacks vca.vcid (some vca)⟩ }
  else s

/-- `n.view() == vcv && n.add(vca)`. -/
def matchAck (vca : ViewChangeAck) (vcv : Int) : Prog ViewInfo Bool := do
  let s ← get
  if (s.lastNvs (cfg.primary vcv)).v = vcv then
    onNv cfg id (cfg.primary vcv) fun V => NVInfo.addAck V vca
  else pure false

/-- `add(View_change_ack*)`; `verified` is what `verify` returns. -/
def addAck (vca : ViewChangeAck) (verified : Bool) : Prog ViewInfo Unit := do
  let vcv := toInt vca.v
  when verified do
    assert (decide (0 ≤ vcv))
    let added ← matchAck cfg id vca vcv
    when (!added && id == cfg.primary vcv) (modify (storeAck vca vcv))

/-! ## Views, checkpoints and keys -/

def maxView (s : ViewInfo) : Int := kMax (cfg.f + 1) ((List.range cfg.n).map s.lastViews) seqnoMax

def maxMajView (s : ViewInfo) : Int := kMax cfg.nf ((List.range cfg.n).map s.lastViews) seqnoMax

def myViewChange (s : ViewInfo) : Option ViewChange :=
  match s.lastVcs id with
  | none => (s.lastNvs (cfg.primary s.v)).vcOf id
  | some vc => some vc

def markStable (ls : Int) : Prog ViewInfo Unit := do
  modify fun s =>
    { s with lastStable := ls, oplog := s.oplog.truncate cfg.P.maxOut OReqInfo.clear (ls + 1) }
  let s ← get
  onNv cfg id (cfg.primary s.v) fun V => NVInfo.markStable V ls

/-- The part of `mark_stale` for replica `i`. -/
def staleOne (i : Nat) : Prog ViewInfo Unit := do
  modify fun s => { s with
    lastVcs := if i = id then s.lastVcs else Function.update s.lastVcs i none
    lastViews :=
      if i ≠ id ∧ s.v ≤ s.lastViews i then Function.update s.lastViews i s.v else s.lastViews
    myVacks := Function.update s.myVacks i none }
  let vc ← onNv cfg id i NVInfo.markStale
  modify fun s => { s with
    lastVcs := if vc.any fun vc => vc.v == s.v then Function.update s.lastVcs id vc else s.lastVcs
    vacks := Function.update s.vacks i noAcks }

def markStale : Prog ViewInfo Unit := each (staleOne cfg id) (List.range cfg.n)

end ViewInfo

end TinyBFT
