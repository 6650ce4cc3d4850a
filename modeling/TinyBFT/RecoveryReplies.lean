import TinyBFT.Execution
import TinyBFT.Recovery
import TinyBFT.Lib.Reads

/-!
# The recovery request and its replies (`Replica.cc`, `Request.cc`, `Request.h`)

Once the estimation is complete, a recovering replica sends a request that tells the others to
recover with it: they change keys, and answer with the sequence number at which they executed it. A
quorum of these answers moves its recovery point and its view.

| here | there |
| --- | --- |
| `OwnRequest`      | a `Request` that a replica sends for itself; `extra` is the field of the header |
| `OwnRequest.sign` | `sign` (`Request.cc:59-71`) |
| `isRecovery`      | `is_recovery` (`Request.h:171`) |
| `Elsewhere`       | what other handlers change and these read |
| `Rec`             | a recovering replica: `rr`, `rr_reps`, `rr_views`, `recovery_point`, the estimator and its query |
| `handleReplyStable` | `handle(Reply_stable)` (`Replica.cc:2019-2064`); `low` is what `low_estimate` returns |
| `enforceView`     | `enforce_view` (`Replica.cc:2066-2078`); `viewChange` is `send_view_change` |
| `handleReply`     | `handle(Reply)` (`Replica.cc:2080-2173`); `contents` is what `reply(len)` returns |
| `tryEndRecovery`  | `try_end_recovery` (`Replica.cc:2307-2325`) |
| `recover`         | `recover` (`Replica.cc:1909-1958`), from its initialization of the variables on |

`sign` sets bit 1 of `extra` and `is_recovery` reads bit 2: no request of a replica is a recovery
request (`recovery_sound_iff`). The replies to it take the branch for ordinary requests. The other
branch would take the tentative replies for the ones that are not (`handleReply_final`).
-/

namespace TinyBFT

/-- A request that a replica sends for itself. -/
structure OwnRequest where
  extra : BitVec 16
  cid : Nat
  rid : Nat
  command : List UInt8
deriving DecidableEq

namespace OwnRequest

/-- The constructor, and the command that is stored. -/
def new (cid rid : Nat) (command : List UInt8) : OwnRequest := ⟨0, cid, rid, command⟩

/-- What `sign` does to the header. -/
def sign (r : OwnRequest) : OwnRequest := { r with extra := r.extra ||| 2 }

def isRecovery (r : OwnRequest) : Bool := (r.extra >>> 2) &&& 1 == 1

/-- The request as `execute_prepared` gets it. -/
def toExec (r : OwnRequest) : ExecRequest := ⟨r.cid, r.rid, r.isRecovery, -1, r.command⟩

end OwnRequest

/-- A replica that executes it takes the branch of `execute_prepared` for recovery requests. -/
def TakesRecovery {σ : Type} (A : App σ) (q : ExecRequest) : Prop :=
  Exec.isReplica A q.cid = true ∧ q.isRecovery = true

/-- What other handlers change. -/
structure Elsewhere where
  v : Int
  vcRecovering : Bool
  inCheck : Bool
  progress : Progress

structure Rec where
  qs : Option Int
  se : StableEstimator
  rr : Option OwnRequest
  rrReps : Certificate Reply
  rrViews : Nat → Int
  recoveryPoint : Int
  recovering : Bool
  other : Elsewhere

inductive RecEvent
  | replyStable (m : ReplyStable) (mac : Bool) (low : Int) (rid : Nat) (viOk stateOk : Bool)
  | reply (m : Reply) (rid : Nat) (mine verified : Bool)
  | sendRequest (rid : Nat) (command : List UInt8)
  | recover (nonce lc lp : Int) (other : Elsewhere)
  | elsewhere (other : Elsewhere)
  | tryEndRecovery

namespace Rec

variable (P : Params) (E : Env) (contents : Reply → List UInt8) (viewChange : Elsewhere → Elsewhere)

/-- The message completes the estimation. -/
def Completes (s : Rec) (m : ReplyStable) (mac : Bool) : Prop :=
  s.qs = some m.nonce ∧ (s.se.add P E m false mac).2 = true

instance (s : Rec) (m : ReplyStable) (mac : Bool) : Decidable (Completes P E s m mac) :=
  inferInstanceAs (Decidable (_ ∧ _))

def handleReplyStable (s : Rec) (m : ReplyStable) (mac : Bool) (low : Int) (rid : Nat)
    (viOk stateOk : Bool) : Option Rec :=
  if s.qs = some m.nonce then
    let (se, done) := s.se.add P E m false mac
    if done then
      let recoveryPoint := se.est + P.maxOut
      if s.recovering then do
        let progress ← s.other.progress.enforceBound P recoveryPoint low viOk stateOk
        some { s with
          qs := none, se, recoveryPoint
          rr := some (OwnRequest.new E.id rid (Bytes.ofInt 8 recoveryPoint)).sign
          other := { s.other with progress, inCheck := true } }
      else none
    else some { s with se }
  else some s

def tryEndRecovery (s : Rec) : Rec :=
  if s.recovering && s.recoveryPoint ≤ s.other.progress.lastStable &&
    !s.other.inCheck && s.rrReps.isComplete then
    { s with recovering := false }
  else s

def enforceView (recView : Int) (s : Rec) : Option Rec :=
  if s.recovering then
    if s.other.v ≤ recView || s.other.vcRecovering ||
      (s.other.progress.limbo && recView + 1 == s.other.v) then some s
    else
      let progress := { s.other.progress with corrupt := true }
      some { s with other := viewChange { s.other with v := recView - 1, progress } }
  else none

/-- A reply to an ordinary request; the replica adds its own once. -/
def addReply (s : Rec) (m : Reply) (mine verified : Bool) : Option (Certificate Reply × Bool) :=
  if mine then
    (if s.rrReps.mine.isNone then s.rrReps.addMine E m else some (s.rrReps, false))
      else s.rrReps.add E m verified

/-- When the replies to an ordinary request are complete, one of them is handed over. -/
def ordinaryReply (s : Rec) (m : Reply) (mine verified : Bool) : Option Rec := do
  let (reps, added) ← addReply E s m mine verified
  if added && reps.isComplete then do
    let rep ← reps.cvalue
    if CertMsg.full rep then some { s with rrReps := reps.cvalueClear.1, rr := none } else none
  else some { s with rrReps := reps }

/-- The reply to a recovery request completes the certificate. -/
def finishReplies (s : Rec) : Option Rec := do
  let rep ← s.rrReps.cvalue
  if rep.replySize = 8 then do
    let recSeqno := Bytes.toInt (contents rep)
    let newRp := Int.tdiv recSeqno P.ckptInterval * P.ckptInterval + P.maxOut
    let s := { s with recoveryPoint := max s.recoveryPoint newRp }
    let recView := kMax (E.f + 1) ((List.range E.n).map s.rrViews) seqnoMax
    let s ← enforceView viewChange recView s
    some { tryEndRecovery s with rr := none }
  else none

def addFinal (s : Rec) (m : Reply) (mine verified : Bool) : Option (Certificate Reply × Bool) :=
  if mine then s.rrReps.addMine E m else s.rrReps.add E m verified

def recoveryReply (s : Rec) (m : Reply) (mine verified : Bool) : Option Rec := do
  let (reps, added) ← addFinal E s m mine verified
  let s := { s with rrReps := reps }
  if added then
    let s := { s with
      rrViews := Function.update s.rrViews m.replica (max (s.rrViews m.replica) (toInt m.view)) }
    if s.rrReps.isComplete then finishReplies P E contents viewChange s else some s
  else some s

def handleReply (s : Rec) (m : Reply) (rid : Nat) (mine verified : Bool) : Option Rec :=
  match s.rr with
  | none => some s
  | some r =>
    if r.rid ≠ rid then some s
    else if !r.isRecovery then ordinaryReply E s m mine verified
    else if mine || m.isTentative then recoveryReply P E contents viewChange s m mine verified
    else some s

/-- `send_request`, for a request that the service of the replica sends. -/
def sendRequest (s : Rec) (rid : Nat) (command : List UInt8) : Rec :=
  if s.rr.isSome then s else { s with rr := some (OwnRequest.new E.id rid command).sign }

/-- The replica queries the others, and counts its own answer. -/
def recover (s : Rec) (nonce lc lp : Int) (other : Elsewhere) : Rec where
  qs := some nonce
  se := (s.se.clear.add P E ⟨lc, lp, E.id, nonce, 0⟩ true false).1
  rr := none
  rrReps := s.rrReps.clear
  rrViews _ := 0
  recoveryPoint := seqnoMax
  recovering := true
  other := { other with vcRecovering := false }

def step (s : Rec) : RecEvent → Option Rec
  | .replyStable m mac low rid viOk stateOk => handleReplyStable P E s m mac low rid viOk stateOk
  | .reply m rid mine verified => handleReply P E contents viewChange s m rid mine verified
  | .sendRequest rid command => some (sendRequest E s rid command)
  | .recover nonce lc lp other => some (recover P E s nonce lc lp other)
  | .elsewhere other => some { s with other }
  | .tryEndRecovery => some (tryEndRecovery s)

/-- A quorum of replies to `r` among the events: from distinct replicas, not tentative, and with one
sequence number. -/
def Certified (es : List RecEvent) (r : OwnRequest) : Prop :=
  ∃ ms : List Reply, (ms.map Reply.replica).Nodup ∧ 2 * E.f + 1 ≤ ms.length ∧
    ∃ n, ∀ m ∈ ms, m.isTentative = false ∧ Bytes.toInt (contents m) = n ∧
      ∃ mine verified, RecEvent.reply m r.rid mine verified ∈ es ∧ (mine || verified) = true

/-- **What recovery should do** in a step from `s` to `s'`, after the events `es`. -/
structure Sound (es : List RecEvent) (s : Rec) (e : RecEvent) (s' : Rec) : Prop where
  /-- The request that is built is a recovery request, for every replica that executes it. -/
  built : ∀ m mac low rid viOk stateOk, e = .replyStable m mac low rid viOk stateOk →
    Completes P E s m mac →
    ∃ r, s'.rr = some r ∧ r.isRecovery = true ∧
      ∀ {σ : Type} (A : App σ), A.numReplicas = E.n → E.id < E.n → TakesRecovery A r.toExec
  /-- Replies move the recovery point and the view only by a quorum. -/
  moved : ∀ m rid mine verified, e = .reply m rid mine verified →
    s'.recoveryPoint ≠ s.recoveryPoint ∨ s'.other.v ≠ s.other.v →
    ∃ r, s.rr = some r ∧ Certified E contents (es ++ [e]) r

/-- Every step of a run is sound. -/
def SoundRun (s : Rec) (es : List RecEvent) : Prop :=
  ∀ pre e post, es = pre ++ e :: post → ∀ t t',
    Run.run (step P E contents viewChange) s pre = some t →
    step P E contents viewChange t e = some t' → Sound P E contents pre t e t'

/-- No estimation is completed. -/
def Incomplete (s : Rec) : RecEvent → Prop
  | .replyStable m mac low rid viOk stateOk =>
      (handleReplyStable P E s m mac low rid viOk stateOk).isSome = true → ¬ Completes P E s m mac
  | _ => True

instance (s : Rec) : ∀ e, Decidable (Incomplete P E s e)
  | .replyStable .. => inferInstanceAs (Decidable (_ → _))
  | .reply .. | .sendRequest .. | .recover .. | .elsewhere _ | .tryEndRecovery => .isTrue trivial

variable {P E contents viewChange} {s s' : Rec} {e : RecEvent} {r : OwnRequest}

/-- Bit 2 of a signed request is clear. -/
theorem isRecovery_sign (cid rid : Nat) (command : List UInt8) :
    (OwnRequest.new cid rid command).sign.isRecovery = false := by
  show (((0 ||| 2 : BitVec 16) >>> 2) &&& 1 == 1) = false
  decide

/-- The outstanding request is an ordinary one. -/
def Ordinary (s : Rec) : Prop := ∀ r, s.rr = some r → r.isRecovery = false

theorem ordinaryReply_eq {m : Reply} {mine verified : Bool}
    (h : ordinaryReply E s m mine verified = some s') :
    ∃ reps rr, s' = { s with rrReps := reps, rr } ∧ (rr = s.rr ∨ rr = none) := by
  simp only [ordinaryReply, Option.bind_eq_bind, Option.bind_eq_some_iff] at h
  obtain ⟨⟨reps, added⟩, -, h⟩ := h
  dsimp only at h
  split at h
  · obtain ⟨rep, -, h⟩ := Option.bind_eq_some_iff.1 h
    split at h
    · obtain rfl := Option.some.inj h
      exact ⟨_, _, rfl, .inr rfl⟩
    · cases h
  · obtain rfl := Option.some.inj h
    exact ⟨_, _, rfl, .inl rfl⟩

/-- A reply to an ordinary request moves neither the recovery point nor the view. -/
theorem handleReply_eq {m : Reply} {rid : Nat} {mine verified : Bool} (ho : Ordinary s)
    (h : handleReply P E contents viewChange s m rid mine verified = some s') :
    s'.recoveryPoint = s.recoveryPoint ∧ s'.other = s.other ∧ (s'.rr = s.rr ∨ s'.rr = none) := by
  unfold handleReply at h
  cases hrr : s.rr with
  | none =>
    rw [hrr] at h
    obtain rfl := Option.some.inj h
    exact ⟨rfl, rfl, .inr hrr⟩
  | some r =>
    rw [hrr] at h
    dsimp only at h
    rw [ho r hrr] at h
    split at h
    · obtain rfl := Option.some.inj h
      exact ⟨rfl, rfl, .inl hrr⟩
    · simp only [Bool.not_false, if_true] at h
      obtain ⟨reps, rr, rfl, hcases⟩ := ordinaryReply_eq h
      exact ⟨rfl, rfl, hrr ▸ hcases⟩

/-- The test for the replies to a recovery request: of those from other replicas it takes the
tentative ones, and drops the others. -/
theorem handleReply_final {m : Reply} {verified : Bool} (hr : s.rr = some r)
    (hrec : r.isRecovery = true) :
    handleReply P E contents viewChange s m r.rid false verified =
      if m.isTentative then
  recoveryReply P E contents viewChange s m false verified else some s := by
  unfold handleReply
  rw [hr]
  simp [hrec]

/-- What a report does to the outstanding request. -/
theorem handleReplyStable_rr {m : ReplyStable} {mac : Bool} {low : Int} {rid : Nat}
    {viOk stateOk : Bool} (h : handleReplyStable P E s m mac low rid viOk stateOk = some s') :
    (Completes P E s m mac ∧ ∃ command, s'.rr = some (OwnRequest.new E.id rid command).sign) ∨
      s'.rr = s.rr := by
  unfold handleReplyStable at h
  split at h
  · rename_i hqs
    dsimp only at h
    split at h
    · rename_i hdone
      split at h
      · obtain ⟨progress, -, h⟩ := Option.bind_eq_some_iff.1 h
        obtain rfl := Option.some.inj h
        exact .inl ⟨⟨hqs, hdone⟩, _, rfl⟩
      · cases h
    · obtain rfl := Option.some.inj h
      exact .inr rfl
  · obtain rfl := Option.some.inj h
    exact .inr rfl

/-- A report that completes the estimation has a request built. -/
theorem handleReplyStable_built {m : ReplyStable} {mac : Bool} {low : Int} {rid : Nat}
    {viOk stateOk : Bool} (hc : Completes P E s m mac)
    (h : handleReplyStable P E s m mac low rid viOk stateOk = some s') :
    ∃ command, s'.rr = some (OwnRequest.new E.id rid command).sign := by
  unfold handleReplyStable at h
  rw [if_pos hc.1] at h
  dsimp only at h
  rw [if_pos hc.2] at h
  split at h
  · obtain ⟨progress, -, h⟩ := Option.bind_eq_some_iff.1 h
    obtain rfl := Option.some.inj h
    exact ⟨_, rfl⟩
  · cases h

theorem ordinary_step (ho : Ordinary s) (h : step P E contents viewChange s e = some s') :
    Ordinary s' := by
  cases e with
  | replyStable m mac low rid viOk stateOk =>
    rcases handleReplyStable_rr h with ⟨-, command, hrr⟩ | hrr
    · intro r hr
      rw [hrr] at hr
      obtain rfl := Option.some.inj hr
      exact isRecovery_sign _ _ _
    · exact fun r hr => ho r (hrr ▸ hr)
  | reply m rid mine verified =>
    obtain ⟨-, -, hrr | hrr⟩ := handleReply_eq ho h
    · exact fun r hr => ho r (hrr ▸ hr)
    · intro r hr
      rw [hrr] at hr
      cases hr
  | sendRequest rid command =>
    obtain rfl := Option.some.inj h
    unfold sendRequest
    split
    · exact ho
    · intro r hr
      obtain rfl := Option.some.inj hr
      exact isRecovery_sign _ _ _
  | recover nonce lc lp other =>
    obtain rfl := Option.some.inj h
    exact fun r hr => by cases hr
  | elsewhere other =>
    obtain rfl := Option.some.inj h
    exact ho
  | tryEndRecovery =>
    obtain rfl := Option.some.inj h
    unfold tryEndRecovery
    split <;> exact ho

/-- **One step** is sound if and only if it does not complete the estimation. -/
theorem sound_iff {es : List RecEvent} (ho : Ordinary s)
    (h : step P E contents viewChange s e = some s') :
    Sound P E contents es s e s' ↔ Incomplete P E s e := by
  constructor
  · intro hs
    cases e with
    | replyStable m mac low rid viOk stateOk =>
      intro _ hc
      obtain ⟨r, hr, hrec, -⟩ := hs.built m mac low rid viOk stateOk rfl hc
      obtain ⟨command, hr'⟩ := handleReplyStable_built hc h
      obtain rfl := Option.some.inj (hr.symm.trans hr')
      rw [isRecovery_sign] at hrec
      cases hrec
    | _ => trivial
  · intro hi
    constructor
    · rintro m mac low rid viOk stateOk rfl hc
      have hsome : (handleReplyStable P E s m mac low rid viOk stateOk).isSome = true := by
        rw [show handleReplyStable P E s m mac low rid viOk stateOk = some s' from h]
        rfl
      exact absurd hc (hi hsome)
    · rintro m rid mine verified rfl hmoved
      obtain ⟨h1, h2, -⟩ := handleReply_eq ho h
      rw [h1, h2] at hmoved
      simp at hmoved

/-- **Recovery requests and replies**: the steps of a run from a state without a request are all
sound if and only if none of them completes the estimation: the request that is then built is not a
recovery request. -/
theorem recovery_sound_iff {es : List RecEvent} (h₀ : s.rr = none) :
    SoundRun P E contents viewChange s es ↔
      Run.Meets (step P E contents viewChange) (Incomplete P E) s es := by
  have ho : Ordinary s := fun r hr => by
    rw [h₀] at hr
    cases hr
  have hord : ∀ {es t}, Run.run (step P E contents viewChange) s es = some t →
    Ordinary t := fun hr =>
    Run.invariant_of_step (fun _ _ _ => ordinary_step) ho hr
  rw [Run.meets_iff]
  constructor
  · intro hall pre e post hes t ht
    cases e with
    | replyStable m mac low rid viOk stateOk =>
      intro hsome
      obtain ⟨t', ht'⟩ := Option.isSome_iff_exists.1 hsome
      have hstep :
        step P E contents viewChange t (.replyStable m mac low rid viOk stateOk) = some t' := ht'
      exact (sound_iff (hord ht) hstep).1 (hall pre _ post hes t t' ht hstep) hsome
    | _ => trivial
  · intro hall pre e post hes t t' ht ht'
    exact (sound_iff (hord ht) ht').2 (hall pre e post hes t ht)

/-- The state after a start: nothing is prepared, and there is no checkpoint file. -/
def fresh : Elsewhere := ⟨0, false, false,
      ⟨0, 0, 0, 0, 0, 0, false, true, ⟨1, fun _ => true⟩, ⟨1, fun _ => true⟩, ⟨0, fun _ => true⟩⟩⟩

/-- Replica 0 of four begins to recover. -/
def begun : Rec :=
  recover .default ⟨4, 1, 0, true⟩ ⟨none, .init, none,
    Certificate.new ⟨4, 1, 0, true⟩ 0, fun _ => 0, 0, false, fresh⟩ 7 0 5 fresh

/-- A report of replica `i` to it. -/
def report (i : Nat) (lc lp : Int) : RecEvent := .replyStable ⟨lc, lp, i, 7, 32⟩ true 0 9 true true

theorem oneReport_sound : SoundRun .default ⟨4, 1, 0, true⟩ (fun _ => []) id begun [report 1 0 130,
      .sendRequest 8 [1], .tryEndRecovery] :=
  (recovery_sound_iff rfl).2 (by decide)

/-- With the report of a third replica the request is built, and it is not a recovery request. -/
theorem twoReports_unsound : ¬ SoundRun .default ⟨4, 1,
      0, true⟩ (fun _ => []) id begun [report 1 0 130, report 2 0 256] := by
  intro h
  obtain ⟨t, ht⟩ : ∃ t, Run.run (step .default ⟨4, 1, 0, true⟩ (fun _ => []) id)
    begun [report 1 0 130] = some t := ⟨_, rfl⟩
  obtain ⟨t', ht'⟩ :
    ∃ t', step .default ⟨4, 1, 0, true⟩ (fun _ => []) id t (report 2 0 256) = some t' := by
    obtain rfl := Option.some.inj ht
    exact Option.isSome_iff_exists.1 (by decide +kernel)
  have hc : Completes .default ⟨4, 1, 0, true⟩ t ⟨0, 256, 2, 7, 32⟩ true := by
    obtain rfl := Option.some.inj ht
    decide +kernel
  obtain ⟨r, hr, hrec, -⟩ :=
    (h [report 1 0 130] (report 2 0 256) [] rfl t t' ht ht').built _ _ _ _ _ _ rfl hc
  obtain ⟨command, hr'⟩ := handleReplyStable_built hc ht'
  obtain rfl := Option.some.inj (hr.symm.trans hr')
  rw [isRecovery_sign] at hrec
  cases hrec

end Rec

end TinyBFT
