import TinyBFT.NewView
import TinyBFT.KMax
import TinyBFT.Lib.Prog

/-!
# `NV_info` (`NV_info.h`, `NV_info.cc`): deciding a new view

One `NV_info` collects the view-change messages that a new-view message refers to. The primary
*summarizes* each view-change as it is acknowledged, chooses a checkpoint and a request for each
sequence number, and completes the new-view message; a backup checks the finished message against
the same view-changes.

| here | there |
| --- | --- |
| `VCInfo`, `CkptSum` | `VC_info`, `Ckpt_sum` (`NV_info.h:139-197`) |
| `ReqSum` | `Req_sum`; `pi` is the pre-prepare of `Pre_prepare_info` |
| `NVInfo`         | the fields of `NV_info`; `nvSent` says that `nv_sent` is not the zero time |
| `NVCall`         | the calls of `replica->process_new_view` and `replica->send_status` |
| `NVEnv`          | the node, and `vi->pre_prepare(n, d)`, `vi->prepare(n, d)` of the parent |
| `addNewView`, `addViewChange`, `addAck` | the three `add` (`NV_info.cc:132-251`) |
| `summarize`, `chooseCkpt`, `checkComp`, `knownStable` | `NV_info.cc:253-453` |
| `getProofs`, `summarizeReqs`, `makeNewView`, `checkNewView` | `NV_info.cc:455-668` |
| `fetchRequest`, `addMissing`, `addMissingPrepare`, `markStable`, `markStale` | `NV_info.cc:670-800`, `:98-130` |

The calls of the replica are collected in `calls` and made when the operation ends, also if it
stops: the code after such a call reads nothing that the call changes. An index out of bounds of an
`Array`, a null pointer and a failed `th_assert` stop the program. The two `set_` functions only
fill in a status message. Messages are values, as in the heap build: in the static build `vcs[i].vc`
points to the block of replica `i`, into which a later view-change of that replica is copied.
-/

namespace TinyBFT

structure VCInfo where
  vc : Option ViewChange
  ackCount : Nat
  ackReps : List Nat
  reqSum : Bool

structure CkptSum where
  n : Int
  d : Digest
  nProofs : Nat
  nLe : Nat
  maxSeqno : Int
  id : Nat
deriving DecidableEq, Repr

structure ReqSum where
  v : Int
  d : Digest
  nProofs : Nat
  nPproofs : Nat
  rPproofs : List Nat
  pi : Option PrePrepareMsg
  nLe : Nat
  id : Nat
deriving DecidableEq, Repr

inductive NVCall
  | processNewView (min : Int) (d : Digest) (max ms : Int)
  | sendStatus
deriving DecidableEq, Repr

structure NVInfo where
  v : Int
  nv : Option NewView
  vcTarget : Nat
  vcCur : Nat
  vcs : Nat → VCInfo
  ckpts : List CkptSum
  chosenCkpt : Option Nat
  min : Int
  max : Int
  base : Int
  reqs : List (List ReqSum)
  compReqs : List (Option Nat)
  nComplete : Int
  isComplete : Bool
  nvSent : Bool
  calls : List NVCall

structure NVEnv where
  cfg : Cfg
  id : Nat
  /-- `vi->pre_prepare(n, d)`; `none` if its assertion fails. -/
  prePrepare : Int → Digest → Option (Option PrePrepareMsg)
  prepare : Int → Digest → Bool

/-- The integers `lo, lo + 1, …, hi - 1` of a loop. -/
def intRange (lo hi : Int) : List Int := (List.range (hi - lo).toNat).map fun i : Nat => lo + i

theorem mem_intRange {lo hi i : Int} : i ∈ intRange lo hi ↔ lo ≤ i ∧ i < hi := by
  simp only [intRange, List.mem_map, List.mem_range]
  constructor
  · rintro ⟨k, hk, rfl⟩
    omega
  · rintro ⟨h1, h2⟩
    exact ⟨(i - lo).toNat, by omega, by omega⟩

theorem intRange_cons {lo hi : Int} (h : lo < hi) :
    intRange lo hi = lo :: intRange (lo + 1) hi := by
  have hn : (hi - lo).toNat = (hi - (lo + 1)).toNat + 1 := by omega
  rw [intRange, intRange, hn, List.range_succ_eq_map, List.map_cons, List.map_map]
  refine congrArg₂ List.cons (by simp) (List.map_congr_left fun i _ => ?_)
  simp only [Function.comp_apply, Nat.cast_succ]
  omega

theorem intRange_nil {lo hi : Int} (h : hi ≤ lo) : intRange lo hi = [] := by
  rw [intRange, show (hi - lo).toNat = 0 by omega, List.range_zero, List.map_nil]

/-- The first number of a range, and those behind it. -/
theorem intRange_eq_cons {i lo hi : Int} {is : List Int} (h : i :: is = intRange lo hi) :
    i = lo ∧ is = intRange (lo + 1) hi ∧ lo < hi := by
  have hlt : lo < hi := by
    by_contra hge
    rw [intRange_nil (by omega)] at h
    cases h
  rw [intRange_cons hlt] at h
  obtain ⟨h1, h2⟩ := List.cons.inj h
  exact ⟨h1, h2, hlt⟩

theorem intRange_append {lo mid hi : Int} (h1 : lo ≤ mid) (h2 : mid ≤ hi) :
    intRange lo hi = intRange lo mid ++ intRange mid hi := by
  obtain ⟨k, hk⟩ : ∃ k, k = (mid - lo).toNat := ⟨_, rfl⟩
  induction k generalizing lo with
  | zero => rw [intRange_nil (by omega : mid ≤ lo), show lo = mid by omega, List.nil_append]
  | succ k ih =>
    rw [intRange_cons (by omega : lo < hi), intRange_cons (by omega : lo < mid),
      ih (by omega) (by omega), List.cons_append]

theorem length_intRange (lo hi : Int) :
    (intRange lo hi).length = (hi - lo).toNat := by simp [intRange]

namespace NVInfo

open Prog (get modify assert ofOption when each eachUntil)

def noVC : VCInfo := ⟨none, 0, [], false⟩

def new : NVInfo where
  v := 0
  nv := none
  vcTarget := 0
  vcCur := 0
  vcs := fun _ => noVC
  ckpts := []
  chosenCkpt := none
  min := -1
  max := -1
  base := -1
  reqs := []
  compReqs := []
  nComplete := 0
  isComplete := false
  nvSent := false
  calls := []

/-- `clear`; the pending calls are not part of the object. -/
def clear (s : NVInfo) : NVInfo := { new with calls := s.calls }

/-- `reqs[i - base]`, `comp_reqs[i - base]` as an index. -/
def row (s : NVInfo) (i : Int) : Option Nat :=
  if 0 ≤ i - s.base ∧ i - s.base < s.reqs.length then some (i - s.base).toNat else none

def cell (s : NVInfo) (i : Int) (j : Nat) : Option ReqSum := do ((← s.reqs[← s.row i]?)[j]?)

/-- Write `reqs[i - base][j]`. -/
def setCell (i : Int) (j : Nat) (cur : ReqSum) (s : NVInfo) : NVInfo :=
  { s with reqs := s.reqs.modify (i - s.base).toNat fun r => r.set j cur }

def comp (s : NVInfo) (i : Int) : Option (Option Nat) := do s.compReqs[← s.row i]?

def setComp (i : Int) (j : Nat) (s : NVInfo) : NVInfo :=
  { s with compReqs := s.compReqs.set (i - s.base).toNat (some j), nComplete := s.nComplete + 1 }

/-- `vcs[id].vc`, dereferenced. -/
def vcOf (s : NVInfo) (id : Nat) : Option ViewChange := (s.vcs id).vc

/-- The view-change that the message in `nv` picks for `n`. -/
def pickedVC (s : NVInfo) (n : Int) : Option ViewChange := do
  let id ← (← s.nv).whichPicked n
  if 0 ≤ id then s.vcOf id.toNat else none

/-- `nv->view_change(id)`. -/
def inNewView (cfg : Cfg) (s : NVInfo) (id : Nat) : Bool :=
  match s.nv with
  | some nv => (nv.viewChange cfg id).isSome
  | none => false

variable (V : NVEnv)

def isPrimary (s : NVInfo) : Bool := V.cfg.primary s.v == V.id

/-! ## Counting -/

/-- `get_proofs`: what the entry of `vc` for `i` adds to the counts of `cur`. -/
def getProofs (cur : ReqSum) (vc : ViewChange) (i : Int) : Option ReqSum := do
  match ← vc.proofs V.cfg.P i with
  | none => some (if vc.ls < i ∧ cur.v < 0 then { cur with nProofs := cur.nProofs + 1 } else cur)
  | some (v, lv, d, prepared) =>
    let positive :=
      { cur with nProofs := cur.nProofs + 1, nPproofs := cur.nPproofs + 1,
                 rPproofs := vc.id :: cur.rPproofs }
    if prepared then some (if cur.v ≤ lv ∧ d = cur.d then positive else cur)
    else if cur.v ≤ v ∧ d = cur.d then some positive
    else some (if cur.v ≤ lv then { cur with nProofs := cur.nProofs + 1 } else cur)

/-- The `K_max` of the last stable checkpoints and of the last checkpoints (`known_stable`). -/
def knownStable (s : NVInfo) : Option Int := do
  if !s.isComplete then none
  else
    let stable := (List.range V.cfg.n).map fun i => ((s.vcOf i).map (·.ls)).getD 0
    let max1 := kMax (V.cfg.f + 1) stable seqnoMax
    if s.min < max1 then none
    else
      let last ← (List.range V.cfg.n).mapM fun i =>
        match s.vcOf i with
        | some vc => (vc.lastCkpt V.cfg.P).map fun c => (c.map (·.2)).getD 0
        | none => some 0
      let max2 := kMax V.cfg.nf last seqnoMax
      let max2 := if s.min < max2 then s.min else max2
      some (if max2 < max1 then max1 else max2)

def call (c : NVCall) : Prog NVInfo Unit := modify fun s => { s with calls := s.calls ++ [c] }

/-! ## Finishing -/

/-- The picks for the requests, in order. -/
def pickAll (s : NVInfo) : List Int → NewView → Option NewView
  | [], nv => some nv
  | i :: is, nv => do
    let cur ← s.cell i (← (← s.comp i))
    if cur.pi.isSome || cur.v == -1 then pickAll s is (← nv.pick V.cfg cur.id i) else none

/-- The new-view message that `make_new_view` builds, up to its authenticator. -/
def finished (s : NVInfo) : Option NewView := do
  let ck ← s.ckpts[← s.chosenCkpt]?
  let nv ← (← s.nv).setMin s.min
  let nv ← nv.pick V.cfg ck.id s.min
  let nv ← pickAll V s (intRange (s.min + 1) s.max) nv
  let nv ← nv.setMax V.cfg s.max
  if nv.reAuthenticate V.cfg then some nv else none

def makeNewView : Prog NVInfo Unit := do
  let s ← get
  assert (s.isPrimary V && s.isComplete && !s.nvSent)
  let nv ← ofOption (s.finished V)
  modify fun s => { s with nv := some nv, nvSent := true }
  let ks ← ofOption (s.knownStable V)
  let ck ← ofOption (s.chosenCkpt.bind (s.ckpts[·]?))
  call (.processNewView s.min ck.d nv.max ks)

/-- The end of `check_comp` at a backup. -/
def finishBackup : Prog NVInfo Unit := do
  let s ← get
  let nv ← ofOption s.nv
  let vc ← ofOption (s.pickedVC nv.min)
  let d ← ofOption (vc.ckpt V.cfg.P vc.ls)
  assert (!(d.getD 0).isZero)
  let ks ← ofOption (s.knownStable V)
  call (.processNewView vc.ls (d.getD 0) nv.max ks)

/-- `if (n_complete == max - min - 1) { is_complete = true; … }`. -/
def finishIf (fin : Prog NVInfo Unit) : Prog NVInfo Unit := do
  let s ← get
  when (s.nComplete == s.max - s.min - 1) do
    modify fun s => { s with isComplete := true }
    fin

def finish : Prog NVInfo Unit := finishIf do
  let s ← get
  if s.isPrimary V then makeNewView V else finishBackup V

/-- The pre-prepare and the proofs that `check_comp` finds in the log of the parent. -/
def fromLog (s : NVInfo) (cur : ReqSum) (i : Int) : Option ReqSum := do
  let cur ←
    if cur.pi.isSome then some cur
    else (V.prePrepare i cur.d).map fun
      | some opp => { cur with pi := some { opp with view := s.v }, nPproofs := V.cfg.n }
      | none => cur
  some (if cur.nPproofs ≤ V.cfg.f && V.prepare i cur.d then
    { cur with nPproofs := V.cfg.n } else cur)

def enough (cur : ReqSum) : Bool := V.cfg.f + 1 ≤ cur.nProofs && V.cfg.nf ≤ cur.nLe

def checkComp (i : Int) (j : Nat) : Prog NVInfo Unit := do
  let s ← get
  assert (!s.isComplete)
  let cur ← ofOption (s.cell i j)
  let done ← ofOption (s.comp i)
  if done.isNone && enough V cur then do
    let cur ← ofOption (s.fromLog V cur i)
    modify (setCell i j cur)
    if cur.v < 0 || (cur.pi.isSome && V.cfg.f < cur.nPproofs) then do
      modify (setComp i j)
      finish V
    else pure ()
  else finish V

/-! ## The primary -/

/-- One entry of `reqs[i - base]` against the entry of `vc`, `(rv, rd)` being its request. -/
def countReq (vc : ViewChange) (i rv : Int) (rd : Digest) (cur : ReqSum) : Option ReqSum :=
  if cur.v = rv ∧ cur.d = rd then
    some { cur with
      nProofs := cur.nProofs + 1, nPproofs :=
        cur.nPproofs + 1, rPproofs := vc.id :: cur.rPproofs, nLe := cur.nLe + 1 }
  else
    (getProofs V cur vc i).map fun cur => if rv < cur.v then
      { cur with nLe := cur.nLe + 1 } else cur

/-- Entry `j`: `true` once the new view is complete. -/
def sumEntry (vc : ViewChange) (i rv : Int) (rd : Digest) (j : Nat) : Prog NVInfo Bool := do
  let s ← get
  let cur ← ofOption (s.cell i j)
  let cur ← ofOption (countReq V vc i rv rd cur)
  modify (setCell i j cur)
  checkComp V i j
  let s ← get
  pure s.isComplete

/-- The proofs of the view-changes that were summarized so far. -/
def searchProofs (s : NVInfo) (i : Int) (cur : ReqSum) : Option ReqSum :=
  (List.range V.cfg.n).foldlM (fun cur j =>
    if (s.vcs j).reqSum then do getProofs V cur (← s.vcOf j) i else some cur) cur

/-- Add an entry for the request of `vc`, which no entry matches. -/
def addEntry (vc : ViewChange) (i rv : Int) (rd : Digest) : Prog NVInfo Unit := do
  let s ← get
  let k ← ofOption (s.row i)
  let r ← ofOption (s.reqs[k]?)
  let nLe := (r.filter fun cur => cur.v < rv).length
  let cur ← ofOption (searchProofs V s i ⟨rv, rd, 0, 0, [], none, nLe + 1, vc.id⟩)
  modify fun s => { s with reqs := s.reqs.modify k fun r => r ++ [cur] }
  checkComp V i r.length

/-- Sequence number `i`; `true` where `summarize_reqs` returns. -/
def sumReq (vc : ViewChange) (i : Int) : Prog NVInfo Bool := do
  let s ← get
  let k ← ofOption (s.row i)
  let r ← ofOption (s.reqs[k]?)
  let (rv, rd) ← ofOption (vc.req V.cfg.P i)
  let matched := r.any fun cur => cur.v == rv && cur.d == rd
  let done ← eachUntil (sumEntry V vc i rv rd) (List.range r.length)
  if done then pure true
  else do
    when (!matched) (addEntry V vc i rv rd)
    pure false

def summarizeReqs (vc : ViewChange) : Prog NVInfo Unit := do
  let s ← get
  assert (s.inNewView V.cfg vc.id && !(s.vcs vc.id).reqSum && !s.isComplete)
  modify fun s => { s with vcs := Function.update s.vcs vc.id { s.vcs vc.id with reqSum := true } }
  let lo := if vc.ls < s.min then s.min else vc.ls
  let _ ← eachUntil (sumReq V vc) (intRange (lo + 1) s.max)
  pure ()

/-- Summarize the view-changes of the new-view message; `true` once the new view is complete. -/
def sumVC (i : Nat) : Prog NVInfo Bool := do
  let s ← get
  if s.inNewView V.cfg i then do
    let vc ← ofOption (s.vcOf i)
    summarizeReqs V vc
    let s ← get
    pure s.isComplete
  else pure false

/-- The first choice of a checkpoint; `true` where `choose_ckpt` returns. -/
def chooseFirst (index : Nat) (cur : CkptSum) : Prog NVInfo Bool := do
  let base := cur.n + 1
  let max := cur.maxSeqno + 1
  assert (decide (0 ≤ max - base))
  modify fun s => { s with
    chosenCkpt := some index, min := cur.n, base, max,
    reqs := s.reqs ++ List.replicate (max - base).toNat [],
    compReqs := List.replicate (s.compReqs.length + (max - base).toNat) none }
  eachUntil (sumVC V) (List.range V.cfg.n)

/-- The completed requests that a later checkpoint drops. -/
def dropped (s : NVInfo) (n : Int) : Option Int :=
  (intRange (s.min + 1) (n + 1)).foldlM
    (fun k i => do some (if (← s.comp i).isSome then k + 1 else k)) 0

def chooseLater (index : Nat) (cur : CkptSum) : Prog NVInfo Unit := do
  let s ← get
  let old ← ofOption (s.chosenCkpt.bind (s.ckpts[·]?))
  when (old.n < cur.n) do
    let k ← ofOption (s.dropped cur.n)
    modify fun s => { s with
      nComplete := s.nComplete - k, chosenCkpt := some index, min := cur.n,
      max := if cur.maxSeqno + 1 < s.max then cur.maxSeqno + 1 else s.max }

def chooseCkpt (index : Nat) : Prog NVInfo Unit := do
  let s ← get
  assert (s.isPrimary V)
  let cur ← ofOption (s.ckpts[index]?)
  assert (decide (V.cfg.f + 1 ≤ cur.nProofs ∧ V.cfg.nf ≤ cur.nLe))
  if s.chosenCkpt.isNone then do
    let done ← chooseFirst V index cur
    if done then pure () else finishIf (makeNewView V)
  else do
    chooseLater index cur
    finishIf (makeNewView V)

/-- One candidate checkpoint against the view-change `vc`, whose own one is `(vcn, vclc)`. -/
def countCkpt (vc : ViewChange) (vclc : Digest) (cur : CkptSum) : Option CkptSum := do
  let maxSeqno := if cur.maxSeqno < vc.maxSeqno then vc.maxSeqno else cur.maxSeqno
  if cur.n = vc.ls ∧ cur.d = vclc then
    some { cur with nProofs := cur.nProofs + 1, nLe := cur.nLe + 1, maxSeqno }
  else
    let d ← vc.ckpt V.cfg.P cur.n
    let cur := if d = some cur.d then { cur with nProofs := cur.nProofs + 1 } else cur
    some (if vc.ls < cur.n then { cur with nLe := cur.nLe + 1, maxSeqno } else cur)

def sumCkpt (vc : ViewChange) (vclc : Digest) (i : Nat) : Prog NVInfo Unit := do
  let s ← get
  let cur ← ofOption (s.ckpts[i]?)
  let cur ← ofOption (countCkpt V vc vclc cur)
  modify fun s => { s with ckpts := s.ckpts.set i cur }
  when (V.cfg.f + 1 ≤ cur.nProofs && V.cfg.nf ≤ cur.nLe) (chooseCkpt V i)

/-- The view-changes of the new-view message that have checkpoint `(n, d)`. -/
def ckptProofs (s : NVInfo) (n : Int) (d : Digest) : Option Nat :=
  (List.range V.cfg.n).foldlM (fun k i =>
    if s.inNewView V.cfg i then do
      let c ← (← s.vcOf i).ckpt V.cfg.P n
      some (if c = some d then k + 1 else k)
    else some k) 0

/-- A new candidate for the last stable checkpoint of `vc`; `before` are the candidates before the
loop. -/
def addCkpt (vc : ViewChange) (vclc : Digest) (before : List CkptSum) : Prog NVInfo Unit := do
  let s ← get
  let lower := before.filter fun cur => cur.n < vc.ls
  let nProofs ← ofOption (ckptProofs V s vc.ls vclc)
  let ns : CkptSum := {
    n := vc.ls, d := vclc, nProofs, nLe := lower.length + 1
    maxSeqno := lower.foldl (fun m cur => if m < cur.maxSeqno then cur.maxSeqno else m) vc.maxSeqno,
      id := vc.id }
  modify fun s => { s with ckpts := s.ckpts ++ [ns] }
  when (V.cfg.f + 1 ≤ ns.nProofs && V.cfg.nf ≤ ns.nLe) (chooseCkpt V s.ckpts.length)

def summarize (vc : ViewChange) : Prog NVInfo Unit := do
  let s ← get
  assert (!s.isComplete)
  let c ← ofOption (vc.ckpt V.cfg.P vc.ls)
  let vclc := c.getD 0
  let matched := s.ckpts.any fun cur => cur.n == vc.ls && cur.d == vclc
  each (sumCkpt V vc vclc) (List.range s.ckpts.length)
  when (!matched && !vclc.isZero) (addCkpt V vc vclc s.ckpts)
  let t ← get
  when (s.chosenCkpt.isSome && !t.isComplete) do
    summarizeReqs V vc
    call .sendStatus

/-- `nv->add_view_change(…); summarize(vc)`. -/
def addToNewView (vc : ViewChange) : Prog NVInfo Unit := do
  let s ← get
  let nv ← ofOption (s.nv.bind (·.addViewChange V.cfg vc.id (V.cfg.vcDigest vc)))
  modify fun s => { s with nv := some nv }
  summarize V vc

/-! ## The backup -/

/-- `n_proofs` and `n_le` of `check_new_view` for the checkpoint `d` of replica `cid`. -/
def ckptEvidence (s : NVInfo) (cid : Nat) (d : Digest) : Option (Nat × Nat) :=
  (List.range V.cfg.n).foldlM (fun k i =>
    match s.vcOf i with
    | some vc =>
      if i = cid then some k
      else do
        let c ← vc.ckpt V.cfg.P s.min
        some (if c = some d then k.1 + 1 else k.1, if vc.ls ≤ s.min then k.2 + 1 else k.2)
    | none => some k) (1, 1)

/-- The view-changes without a request from `nv->max()` on. -/
def belowMax (s : NVInfo) (max : Int) : Nat :=
  (List.range V.cfg.n).countP fun i =>
    ((s.vcOf i).map fun vc => decide (vc.maxSeqno < max)).getD false

/-- The proofs for the request `cur` of sequence number `i`, and the view-changes that do not
contradict it. -/
def reqEvidence (s : NVInfo) (i : Int) (cur : ReqSum) : Option ReqSum :=
  (List.range V.cfg.n).foldlM (fun cur j =>
    match s.vcOf j with
    | some vc => do
      let cur ← getProofs V cur vc i
      let r ← vc.req V.cfg.P i
      some (if r.1 ≤ cur.v then { cur with nLe := cur.nLe + 1 } else cur)
    | none => some cur) cur

/-- Sequence number `i`; `true` where `check_new_view` returns `false`. -/
def checkReq (i : Int) : Prog NVInfo Bool := do
  let s ← get
  let vc ← ofOption (s.pickedVC i)
  if i ≤ vc.ls then pure true
  else do
    let k ← ofOption (s.row i)
    let (v, d) ← ofOption (vc.req V.cfg.P i)
    let cur ← ofOption (reqEvidence V s i ⟨v, d, 0, 0, [], none, 0, vc.id⟩)
    modify fun s => { s with reqs := s.reqs.modify k fun r => r ++ [cur] }
    if enough V cur then do
      checkComp V i 0
      pure false
    else pure true

/-- The requests, where there are any. -/
def checkReqs (nv : NewView) : Prog NVInfo Bool := do
  modify fun s => { s with
    reqs := s.reqs ++ List.replicate (s.max - s.min - 1).toNat []
    compReqs := List.replicate (s.compReqs.length + (s.max - s.min - 1).toNat) none }
  let s ← get
  let failed ← eachUntil (checkReq V) (intRange s.base nv.max)
  pure !failed

/-- `base == nv->max()`: no request. -/
def checkNone (d : Digest) (nv : NewView) : Prog NVInfo Bool := do
  modify fun s => { s with isComplete := true }
  let s ← get
  let ks ← ofOption (s.knownStable V)
  call (.processNewView s.min d nv.max ks)
  pure true

/-- `check_new_view` from the check of `nv->max()` on. -/
def checkMax (d : Digest) (nv : NewView) : Prog NVInfo Bool := do
  let s ← get
  if belowMax V s nv.max < V.cfg.nf then pure false
  else do
    modify fun s => { s with max := nv.max }
    if s.base = nv.max then checkNone V d nv else checkReqs V nv

def checkNewView : Prog NVInfo Bool := do
  let s ← get
  assert (!s.isPrimary V)
  let nv ← ofOption s.nv
  let cid ← ofOption (nv.whichPicked nv.min)
  let vc ← ofOption (s.pickedVC nv.min)
  modify fun s => { s with min := vc.ls }
  if vc.ls ≠ nv.min then pure false
  else do
    modify fun s => { s with base := s.min + 1 }
    let c ← ofOption (vc.ckpt V.cfg.P vc.ls)
    match c with
    | none => pure false
    | some d => do
      let s ← get
      let (nProofs, nLe) ← ofOption (ckptEvidence V s cid.toNat d)
      if nProofs < V.cfg.f + 1 || nLe < V.cfg.nf then pure false
      else do
        modify fun s => { s with chosenCkpt := some 0 }
        checkMax V d nv

/-! ## Messages -/

/-- `add(New_view*)`, whose argument was verified or is the primary's own. -/
def addNewView (m : NewView) : Prog NVInfo Bool := do
  let s ← get
  if m.v ≤ s.v then pure false
  else do
    when (s.v ≠ 0) (modify clear)
    modify fun s => { s with
      v := m.v, nv := some m
      vcTarget := s.vcTarget + (List.range V.cfg.n).countP fun i => (m.viewChange V.cfg i).isSome }
    pure true

/-- The new-view message names the view-change `m`. -/
def names (s : NVInfo) (m : ViewChange) : Option Bool := do
  let nv ← s.nv
  some (nv.viewChange V.cfg m.id == some (V.cfg.vcDigest m))

/-- What follows once `m` is stored. -/
def stored (m : ViewChange) : Prog NVInfo Unit := do
  let s ← get
  if s.isPrimary V then when (m.id == V.id) (addToNewView V m)
  else when (s.vcCur == s.vcTarget) do
    let _ ← checkNewView V
    pure ()

/-- `add(View_change*, verified)`; `digestOk` is what `verify_digest` returns. -/
def addViewChange (m : ViewChange) (verified digestOk : Bool) : Prog NVInfo Bool := do
  let s ← get
  assert (m.v == s.v && decide (m.id < V.cfg.n))
  if (s.vcOf m.id).isSome || s.isComplete then pure false
  else do
    let named ← ofOption (if s.isPrimary V then some true else names V s m)
    if !named then pure false
    else if !verified && (s.isPrimary V || !digestOk || (s.vcs m.id).ackCount < V.cfg.f) then
      pure false
    else do
      modify fun s => { s with
        vcs := Function.update s.vcs m.id { s.vcs m.id with vc := some m }, vcCur := s.vcCur + 1 }
      stored V m
      pure true

/-- One more acknowledgement from `id`. -/
def VCInfo.ack (i : VCInfo) (id : Nat) : VCInfo :=
  { i with ackReps := id :: i.ackReps, ackCount := i.ackCount + 1 }

/-- An acknowledgement that counts: the primary includes the view-change with `2f - 1` of them. -/
def countAck (m : ViewChangeAck) : Prog NVInfo Unit := do
  modify fun s => { s with vcs := Function.update s.vcs m.vcid (VCInfo.ack (s.vcs m.vcid) m.id) }
  let s ← get
  when ((s.vcs m.vcid).ackCount + 1 == 2 * V.cfg.f && s.isPrimary V) do
    let vc ← ofOption (s.vcOf m.vcid)
    addToNewView V vc

/-- The digest that an acknowledgement is compared with, `none` where `add` returns `false`. -/
def ackDigest (s : NVInfo) (nv : NewView) (vcid : Nat) : Option Digest :=
  if s.isPrimary V then (s.vcOf vcid).map V.cfg.vcDigest else nv.viewChange V.cfg vcid

/-- `add(View_change_ack*)`, of a verified acknowledgement. -/
def addAck (m : ViewChangeAck) : Prog NVInfo Bool := do
  let s ← get
  assert (m.v == s.v)
  if s.isComplete then pure false
  else do
    let nv ← ofOption s.nv
    let inNv := (nv.viewChange V.cfg m.vcid).isSome
    match ackDigest V s nv m.vcid with
    | none => pure false
    | some d => do
      when (!inNv && m.vcd == d && !(s.vcs m.vcid).ackReps.contains m.id) (countAck V m)
      pure true

/-! ## Requests, missing messages and checkpoints -/

/-- The pre-prepare of a null request. -/
def nullPrePrepare (cfg : Cfg) (v n : Int) : PrePrepareMsg := ⟨v, n, cfg.batchDigest [], []⟩

/-- `fetch_request`: the pre-prepare and its digest. -/
def fetchRequest (n : Int) : Prog NVInfo (PrePrepareMsg × Digest) := do
  let s ← get
  let nv ← ofOption s.nv
  assert (s.isComplete && decide (nv.min < n ∧ n < nv.max))
  let vc ← ofOption (s.pickedVC n)
  let (pv, d) ← ofOption (vc.req V.cfg.P n)
  if 0 ≤ pv ∧ d ≠ 0 then do
    let c ← ofOption (s.comp n)
    let j ← ofOption c
    let cur ← ofOption (s.cell n j)
    let pp ← ofOption cur.pi
    modify (setCell n j { cur with pi := none })
    pure (pp, d)
  else pure (nullPrePrepare V.cfg s.v n, V.cfg.batchDigest [])

/-- The guard of the two `add_missing`: the request of `n` is still open. -/
def open' (s : NVInfo) (n : Int) : Option Bool :=
  if s.chosenCkpt.isSome ∧ s.min < n ∧ n < s.max then (s.comp n).map (·.isNone) else some false

/-- `add_missing(Pre_prepare*)`; `digestOk` is what `check_digest` returns. -/
def addMissing (pp : PrePrepareMsg) (digestOk : Bool) : Prog NVInfo Unit := do
  let s ← get
  let isOpen ← ofOption (s.open' pp.seqno)
  when isOpen do
    let r ← ofOption ((s.row pp.seqno).bind (s.reqs[·]?))
    match r.findIdx? fun cur => cur.d == pp.digest with
    | none => pure ()
    | some j => do
      let cur ← ofOption (s.cell pp.seqno j)
      when (cur.pi.isNone && digestOk) do
        modify (setCell pp.seqno j { cur with pi := some { pp with view := s.v } })
        checkComp V pp.seqno j

/-- `add_missing(Prepare*)`, which does not verify its argument. -/
def addMissingPrepare (p : Prepare) : Prog NVInfo Unit := do
  let s ← get
  let isOpen ← ofOption (s.open' p.seqno)
  when isOpen do
    let r ← ofOption ((s.row p.seqno).bind (s.reqs[·]?))
    match r.findIdx? fun cur => cur.d == p.digest with
    | none => pure ()
    | some j => do
      let cur ← ofOption (s.cell p.seqno j)
      when (decide (cur.nPproofs ≤ V.cfg.f)) do
        assert (decide (p.id < V.cfg.n))
        when (!cur.rPproofs.contains p.id) do
          modify (setCell p.seqno j { cur with nPproofs := cur.nPproofs + 1,
                                               rPproofs := p.id :: cur.rPproofs })
          checkComp V p.seqno j

/-- `mark_stable`. -/
def markStable (ls : Int) : Prog NVInfo Unit := do
  let s ← get
  when (decide (0 < s.v) && !s.isComplete && s.chosenCkpt.isSome &&
    decide (s.max ≤ ls) && !s.isPrimary V) do
    modify fun s => { s with isComplete := true }
    call (.processNewView ls 0 ls ls)

/-- The primary starts again with an empty message and its own view-change. -/
def recreate (ov : Int) (pres : Option ViewChange) : Prog NVInfo Unit := do
  let _ ← addNewView V (NewView.new ov)
  let vc ← ofOption pres
  let _ ← addViewChange V vc true true
  pure ()

/-- `mark_stale(id)`, which returns the replica's own view-change where it does not keep it. -/
def markStale : Prog NVInfo (Option ViewChange) := do
  let s ← get
  if s.isComplete then pure none
  else do
    modify clear
    if 0 < s.v ∧ V.cfg.primary s.v = V.id then do
      recreate V s.v (s.vcOf V.id)
      pure none
    else pure (s.vcOf V.id)

end NVInfo

end TinyBFT
