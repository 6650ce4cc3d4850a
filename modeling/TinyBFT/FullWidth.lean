import TinyBFT.Acks

/-!
# Views at full width (`View_info.cc:287-417`)

A view is a 64-bit number; the three `add` of `View_info` hold that of their argument in an `int`.
The narrowed view decides which `NV_info` is looked at and under which view a message is stored, and
`NV_info::add` requires `m->view() == v`.

| here | there |
| --- | --- |
| `Adds`           | `NV_info::add(View_change*, bool)` and `add(View_change_ack*)`, or what else may stand in their place |
| `moveVCWith`, …, `viewProgWith` | the operations of `View_info`, with these two as parameters |
| `Adds.Lawful`    | they are the code's where the precondition holds |
| `fullWidth`      | what the code narrows is the same, or plays no part |
| `AtFullWidth`, `Exactly`, `Sound` | under which views a message is passed on, counted and stored |

That an operation does the same with all lawful `Adds` says that it calls them only where the
precondition holds.
-/

namespace TinyBFT

namespace ViewInfo

open Prog (get modify assert ofOption when each Holds Reaches Agrees)

/-- The two `add` of `NV_info` that require a view. -/
structure Adds where
  vc : NVEnv → ViewChange → Bool → Bool → Prog NVInfo Bool
  ack : NVEnv → ViewChangeAck → Prog NVInfo Bool

namespace Adds

def code : Adds := ⟨NVInfo.addViewChange, NVInfo.addAck⟩

/-- The code's, where `m->view() == v`. -/
structure Lawful (A : Adds) : Prop where
  vc : ∀ V m verified digestOk (n : NVInfo), m.v = n.v →
    A.vc V m verified digestOk n = NVInfo.addViewChange V m verified digestOk n
  ack : ∀ V m (n : NVInfo), m.v = n.v → A.ack V m n = NVInfo.addAck V m n

end Adds

section With

variable (cfg : Cfg) (id : Nat) (A : Adds)

def moveVCWith (j : Nat) (v : Int) (i : Nat) : Prog ViewInfo Unit := do
  let s ← get
  match s.lastVcs i with
  | none => pure ()
  | some vc =>
    when (vc.v == v) do
      let added ← onNv cfg id j fun V => A.vc V vc true true
      when added (modify fun s => { s with lastVcs := Function.update s.lastVcs i none })

def moveAckWith (i j : Nat) : Prog ViewInfo Unit := do
  let s ← get
  match (s.vacks i).vacks j with
  | none => pure ()
  | some ack =>
    when ((s.vacks i).v == s.v) do
      let added ← onNv cfg id (cfg.primary s.v) fun V => A.ack V ack
      when added (modify fun s => { s with
        vacks := Function.update s.vacks i { s.vacks i with
          vacks := Function.update (s.vacks i).vacks j none } })

def startNewViewWith : Prog ViewInfo Unit := do
  let s ← get
  assert (decide ((s.lastNvs id).v ≤ s.v))
  let _ ← onNv cfg id id fun V => NVInfo.addNewView V (NewView.new s.v)
  each (moveVCWith cfg id A id s.v) (List.range cfg.n)
  each (fun i => each (moveAckWith cfg id A i) (List.range cfg.n)) (List.range cfg.n)

def viewChangeWith (v lastExecuted : Int) (word : Nat → BitVec 64) (entry : Nat → ReqInfo)
    (digest : Int → Option Digest) :
    Prog ViewInfo Unit := do
  modify fun s => discardOld { s with v }
  let s ← get
  let vc ← ofOption (s.buildViewChange cfg id word entry lastExecuted digest)
  out (.send none (.viewChange vc))
  modify fun s => { s with
    lastVcs := Function.update s.lastVcs id (some vc), lastViews :=
      Function.update s.lastViews id v }
  if cfg.primary v = id then
    startNewViewWith cfg id A else each (ackOther cfg id vc) (List.range cfg.n)

def matchViewChangeWith (vc : ViewChange) (vcv : Int) (verified digestOk : Bool) :
    Prog ViewInfo Bool := do
  let stored ← onNv cfg id (cfg.primary vcv) fun V => A.vc V vc verified digestOk
  let s ← get
  when (stored && id == cfg.primary s.v && vcv == s.v)
    (each (fun i => moveAckWith cfg id A i vc.id) (List.range cfg.n))
  modify fun s =>
    if verified && s.lastViews vc.id < vcv then
      { s with lastViews := Function.update s.lastViews vc.id vcv } else s
  pure stored

def addViewChangeWith (vc : ViewChange) (verified digestOk : Bool) : Prog ViewInfo Bool := do
  let s ← get
  let vcv := toInt vc.v
  if vcv < s.v then pure false
  else if (s.lastNvs (cfg.primary vcv)).v = vcv then
    matchViewChangeWith cfg id A vc vcv verified digestOk
  else do
    assert (decide (vc.id < cfg.n))
    if s.lastViews vc.id < vcv && verified then do
      storeViewChange cfg id vc vcv
      pure true
    else pure false

def addNewViewWith (nv : NewView) (verified : Bool) : Prog ViewInfo Unit := do
  let s ← get
  let nvv := toInt nv.v
  when (decide (s.v ≤ nvv) && verified && decide ((s.lastNvs (nv.id cfg)).v < nv.v)) do
    let stored ← onNv cfg id (nv.id cfg) fun V => NVInfo.addNewView V nv
    when stored (each (moveVCWith cfg id A (nv.id cfg) nvv) (List.range cfg.n))

def matchAckWith (vca : ViewChangeAck) (vcv : Int) : Prog ViewInfo Bool := do
  let s ← get
  if (s.lastNvs (cfg.primary vcv)).v = vcv then onNv cfg id (cfg.primary vcv) fun V => A.ack V vca
  else pure false

def addAckWith (vca : ViewChangeAck) (verified : Bool) : Prog ViewInfo Unit := do
  let vcv := toInt vca.v
  when verified do
    assert (decide (0 ≤ vcv))
    let added ← matchAckWith cfg id A vca vcv
    when (!added && id == cfg.primary vcv) (modify (storeAck vca vcv))

/-- `NV_info::mark_stale`, where the primary starts again. -/
def recreateWith (V : NVEnv) (ov : Int) (pres : Option ViewChange) : Prog NVInfo Unit := do
  let _ ← NVInfo.addNewView V (NewView.new ov)
  let vc ← ofOption pres
  let _ ← A.vc V vc true true
  pure ()

def nvMarkStaleWith (V : NVEnv) : Prog NVInfo (Option ViewChange) := do
  let s ← get
  if s.isComplete then pure none
  else do
    modify NVInfo.clear
    if 0 < s.v ∧ V.cfg.primary s.v = V.id then do
      recreateWith A V s.v (s.vcOf V.id)
      pure none
    else pure (s.vcOf V.id)

def staleOneWith (i : Nat) : Prog ViewInfo Unit := do
  modify fun s => { s with
    lastVcs := if i = id then s.lastVcs else Function.update s.lastVcs i none
    lastViews :=
      if i ≠ id ∧ s.v ≤ s.lastViews i then Function.update s.lastViews i s.v else s.lastViews
    myVacks := Function.update s.myVacks i none }
  let vc ← onNv cfg id i (nvMarkStaleWith A)
  modify fun s => { s with
    lastVcs := if vc.any fun vc => vc.v == s.v then Function.update s.lastVcs id vc else s.lastVcs
    vacks := Function.update s.vacks i noAcks }

def viewProgWith : ViewOp → Prog ViewInfo Unit
  | .viewChange v le word entry digest => viewChangeWith cfg id A v le word entry digest
  | .addViewChange vc verified digestOk => do
    let _ ← addViewChangeWith cfg id A vc verified digestOk
  | .addNewView nv verified => addNewViewWith cfg id A nv verified
  | .addAck vca verified => addAckWith cfg id A vca verified
  | .markStale => each (staleOneWith cfg id A) (List.range cfg.n)
  | op => viewProg cfg id op

end With

variable {cfg : Cfg} {id : Nat}

/-- With the code's `add` they are the operations of the code. -/
theorem viewProgWith_code (op : ViewOp) : viewProgWith cfg id .code op = viewProg cfg id op := by
  cases op <;> rfl

/-! ## What should hold, and when it does -/

section Condition

variable (cfg : Cfg) (id : Nat)

/-- `NV_info::add` returns `true` for the acknowledgement. -/
def answers (V : NVEnv) (n : NVInfo) (a : ViewChangeAck) : Bool :=
  !n.isComplete && n.nv.any fun nv => (NVInfo.ackDigest V n nv a.vcid).isSome

/-- The narrowed view is that of the message, or nothing is done under it. An acknowledgement that
is stored is for the current view, under which it is filed. -/
def fullWidth (s : ViewInfo) : ViewOp → Bool
  | .addViewChange vc verified _ =>
    let w := toInt vc.v
    w == vc.v || decide (w < s.v) ||
      ((s.lastNvs (cfg.primary w)).v != w && !(decide (s.lastViews vc.id < w) && verified))
  | .addNewView nv verified =>
    let w := toInt nv.v
    w == nv.v || !(decide (s.v ≤ w) && verified && decide ((s.lastNvs (nv.id cfg)).v < nv.v)) ||
      (List.range cfg.n).all fun i => !(s.lastVcs i).any fun vc => vc.v == w
  | .addAck a true =>
    let w := toInt a.v
    let n := s.lastNvs (cfg.primary w)
    (n.v != w || w == a.v) &&
      (n.v == w && answers (s.nvEnv cfg id) n a || id != cfg.primary w ||
        decide (w < (s.vacks a.id).v) || (a.v == s.v && w == s.v))
  | _ => true

/-- What the replica does before: `verify` (`View_change.cc:153-181`) accepts the message, and views
increase. -/
def callable (s : ViewInfo) : ViewOp → Bool
  | .addViewChange vc verified _ => !verified || vc.wellFormed cfg
  | op => forward s op

/-- One operation; no next one if it stops. -/
def viewStep (s : ViewInfo) (op : ViewOp) : Option ViewInfo :=
  if callable cfg s op then
    match viewProg cfg id op s with
    | (some _, t) => some t
    | (none, _) => none
  else none

end Condition

/-- The view-change that is received and verified. -/
def received : ViewOp → Option ViewChange
  | .addViewChange vc true _ => some vc
  | _ => none

/-- The new-view message that is received and verified. -/
def announced : ViewOp → Option NewView
  | .addNewView nv true => some nv
  | _ => none

def isMessage : ViewOp → Bool
  | .addViewChange .. | .addNewView .. | .addAck .. => true
  | _ => false

/-- A view-change is counted and stored under its view, and an `NV_info` gets the view of the
message that it is given. -/
structure Exactly (cfg : Cfg) (op : ViewOp) (s t : ViewInfo) : Prop where
  lastViews : ∀ j, t.lastViews j = s.lastViews j ∨ ∃ m,
    received op = some m ∧ m.id = j ∧ t.lastViews j = m.v
  lastVcs : ∀ j m, t.lastVcs j = some m → s.lastVcs j = some m ∨
    received op = some m ∧ m.id = j ∧ t.lastViews j = m.v
  nvs : ∀ k, (t.lastNvs k).v = (s.lastNvs k).v ∨ ∃ nv,
    announced op = some nv ∧ nv.id cfg = k ∧ (t.lastNvs k).v = nv.v

end ViewInfo

/-! ## The view-changes of an `NV_info` are of its view -/

namespace NVInfo

open Prog (Ensures Reaches Agrees)

variable {V : NVEnv} {s t : NVInfo}

structure Uniform (s : NVInfo) : Prop where
  nonneg : 0 ≤ s.v
  vcs : ∀ j m, s.vcOf j = some m → m.v = s.v
  zero : s.v = 0 → s.nv = none ∧ ∀ j, s.poll.ballots j = (none, 0, [])

theorem Uniform.new : Uniform NVInfo.new := ⟨le_rfl, nofun, fun _ => ⟨rfl, fun _ => rfl⟩⟩

theorem Uniform.clear (s : NVInfo) : Uniform s.clear :=
  ⟨le_rfl, nofun, fun _ => ⟨rfl, fun _ => rfl⟩⟩

/-- The calls play no part. -/
theorem Uniform.called (h : Uniform s) (calls : List NVCall) : Uniform { s with calls } :=
  ⟨h.nonneg, h.vcs, h.zero⟩

theorem Uniform.of_poll (h : Uniform s) (hp : t.poll = s.poll) : Uniform t := by
  have hv := v_of_poll hp
  refine ⟨hv ▸ h.nonneg, fun j m hm => ?_, fun hz => ?_⟩
  · rw [vcOf_of_poll hp] at hm
    rw [hv]
    exact h.vcs j m hm
  · obtain ⟨hnv, hb⟩ := h.zero (hv ▸ hz)
    refine ⟨?_, hp ▸ hb⟩
    have hinfo : t.nv.map (·.vcInfo) = s.nv.map (·.vcInfo) := congrArg Poll.vcInfo hp
    rw [hnv] at hinfo
    exact Option.map_eq_none_iff.1 hinfo

/-- The view is that of a message, and the view-changes are. -/
theorem Uniform.at_view (hpos : 0 < t.v)
    (hvcs : ∀ j m, t.vcOf j = some m → m.v = t.v) : Uniform t :=
  ⟨hpos.le, hvcs, fun hz => absurd hz hpos.ne'⟩

theorem Includes.v_eq {vc : ViewChange} (h : Includes V vc s t) : t.v = s.v := by
  obtain ⟨nv, -, hp⟩ := h
  exact congrArg Poll.v hp

theorem Includes.vcOf_eq {vc : ViewChange} (h : Includes V vc s t) : t.vcOf = s.vcOf := by
  obtain ⟨nv, -, hp⟩ := h
  have hvcs := vcOf_of_poll hp
  exact hvcs

theorem Stored.v_eq {m : ViewChange} {verified : Bool} (h : Stored V m verified s t) :
    t.v = s.v := by
  have ha := h.after
  split at ha
  · exact ha.v_eq
  · exact congrArg Poll.v ha

theorem Stored.vcOf_eq {m : ViewChange} {verified : Bool} (h : Stored V m verified s t) :
    t.vcOf = (s.store m).vcOf := by
  have ha := h.after
  split at ha
  · exact ha.vcOf_eq
  · exact vcOf_of_poll ha

/-- What an `add` keeps. -/
def Kin (s t : NVInfo) : Prop := t.Uniform ∧ t.v = s.v

theorem addViewChange_kin (h : Uniform s) (m : ViewChange) (verified digestOk : Bool)
    (hm : verified = true → 0 < m.v) :
    Ensures (NVInfo.addViewChange V m verified digestOk) s (fun _ t => s.Kin t) fun _ => True := by
  refine Reaches.mono (addViewChange_polls m verified digestOk s) fun _ t ht => ?_
  rcases ht with hp | hst
  · exact ⟨h.of_poll hp, v_of_poll hp⟩
  have hne : s.v ≠ 0 := by
    intro hz
    cases hprim : s.isPrimary V with
    | true => exact (hm (hst.verified hprim)).ne' (hst.view.trans hz)
    | false =>
      have := hst.message hprim
      rw [(h.zero hz).1] at this
      cases this
  have hv := hst.v_eq
  refine ⟨.at_view (by rw [hv]; exact lt_of_le_of_ne h.nonneg hne.symm) fun j x hx => ?_, hv⟩
  rw [hst.vcOf_eq, store_vcOf] at hx
  rw [hv]
  split at hx
  · cases hx
    exact hst.view
  · exact h.vcs j x hx

theorem addAck_kin (h : Uniform s) (m : ViewChangeAck) :
    Ensures (NVInfo.addAck V m) s (fun _ t => s.Kin t) fun _ => True := by
  refine Reaches.mono (addAck_outcome m s) fun _ t ht => ?_
  have hcount : matching V s m = true → t.v = s.v → t.vcOf = s.vcOf → s.Kin t := by
    intro hfits hv hvcs
    have hne : s.v ≠ 0 := fun hz => by simp [matching, (h.zero hz).1] at hfits
    refine ⟨.at_view (by rw [hv]; exact lt_of_le_of_ne h.nonneg hne.symm) fun j x hx => ?_, hv⟩
    rw [hv]
    exact h.vcs j x (hvcs ▸ hx)
  cases ht.2 with
  | passed same _ => exact ⟨h.of_poll same, v_of_poll same⟩
  | counted _ fits _ _ _ poll =>
    exact hcount fits (congrArg Poll.v poll) ((vcOf_of_poll poll).trans (ackWith_vcOf m))
  | included _ _ fits _ _ _ _ incl =>
    exact hcount fits incl.v_eq (incl.vcOf_eq.trans (ackWith_vcOf m))

theorem addNewView_uniform (h : Uniform s) (m : NewView) :
    Ensures (NVInfo.addNewView V m) s
      (fun _ t => t.Uniform ∧ (m.v ≤ s.v ∧ t.v = s.v ∨ s.v < m.v ∧ t.v = m.v)) fun _ => True := by
  refine Reaches.mono (addNewView_fresh (fun hz => (h.zero hz).2) m) fun _ t ht => ?_
  rcases ht with ⟨rfl, hle⟩ | ⟨hlt, hv, -, hb⟩
  · exact ⟨h, .inl ⟨hle, rfl⟩⟩
  · refine ⟨.at_view (by rw [hv]; exact h.nonneg.trans_lt hlt) fun j x hx => ?_, .inr ⟨hlt, hv⟩⟩
    have hnone : t.vcOf j = none := congrArg Prod.fst (hb j)
    rw [hnone] at hx
    cases hx

end NVInfo

namespace ViewInfo

open Prog (get modify assert ofOption when each Holds Reaches Ensures Agrees)
open NVInfo (threeNewView)

variable {cfg : Cfg} {id : Nat} {A : Adds} {s t u s₀ : ViewInfo} {α : Type}

section Nv

variable {V : NVEnv} {n : NVInfo}

theorem Adds.Lawful.vc_agrees (hA : A.Lawful) (h : n.Uniform) {m : ViewChange} (hv : m.v = n.v)
    (verified digestOk : Bool) (hpos : verified = true → 0 < m.v) :
    Agrees (A.vc V m verified digestOk) (NVInfo.addViewChange V m verified digestOk) n
      fun _ t => n.Kin t :=
  ⟨hA.vc V m verified digestOk n hv, NVInfo.addViewChange_kin h m verified digestOk hpos⟩

theorem Adds.Lawful.ack_agrees (hA : A.Lawful) (h : n.Uniform) {m : ViewChangeAck}
    (hv : m.v = n.v) :
    Agrees (A.ack V m) (NVInfo.addAck V m) n fun _ t => n.Kin t :=
  ⟨hA.ack V m n hv, NVInfo.addAck_kin h m⟩

theorem nvMarkStale_agrees (hA : A.Lawful) (h : n.Uniform) :
    Agrees (nvMarkStaleWith A V) (NVInfo.markStale V) n fun _ t => t.Uniform := by
  refine .get_bind (.ite (fun _ => .pure h) fun _ =>
    .modify_bind (.ite (fun hp => ?_) fun _ => .pure (.clear n)))
  refine .bind (.bind (.of_ensures (NVInfo.addNewView_uniform (.clear n) (NewView.new n.v)))
    fun _ t ⟨ht, hv⟩ => ?_) fun _ t ht => .pure ht
  have hv : t.v = n.v := hv.elim (fun h0 => absurd h0.1 (not_le.2 hp.1)) fun h1 => h1.2
  refine .ofOption_bind fun vc hvc => ?_
  have hvc : vc.v = n.v := h.vcs V.id vc hvc
  exact .bind (hA.vc_agrees ht (hvc.trans hv.symm) true true fun _ => hvc ▸ hp.1)
    fun _ u hu => .pure hu.1

end Nv

/-! ## What a run keeps -/

/-- Acknowledgements are filed under their view, and view-changes in the `NV_info` of theirs. -/
structure Sound (s : ViewInfo) : Prop where
  nonneg : 0 ≤ s.v
  acks : ∀ i j a, (s.vacks i).vacks j = some a → a.v = (s.vacks i).v
  nvs : ∀ k, (s.lastNvs k).Uniform

/-- Between `s₀` and `s` nothing was counted in `last_views`, no message was stored outside the
`NV_info`s, and these keep their views. -/
structure Beside (s₀ s : ViewInfo) : Prop where
  sound : Sound s
  v : s.v = s₀.v
  lastViews : s.lastViews = s₀.lastViews
  lastVcs : ∀ j m, s.lastVcs j = some m → s₀.lastVcs j = some m
  nvs : ∀ k, (s.lastNvs k).v = (s₀.lastNvs k).v

theorem Sound.beside (h : Sound s) : Beside s s := ⟨h, rfl, rfl, fun _ _ h => h, fun _ => rfl⟩

theorem Beside.trans (h : Beside s t) (h' : Beside t u) : Beside s u :=
  ⟨h'.sound, h'.v.trans h.v, h'.lastViews.trans h.lastViews,
    fun j m hm => h.lastVcs j m (h'.lastVcs j m hm),
    fun k => (h'.nvs k).trans (h.nvs k)⟩

theorem Sound.put (h : Sound s) {j : Nat} {n : NVInfo} (hn : n.Uniform) : Sound (put s j n) := by
  refine ⟨h.nonneg, h.acks, fun k => ?_⟩
  by_cases hk : k = j
  · subst hk
    rw [put_lastNvs_self]
    exact hn.called []
  · rw [put_lastNvs_of_ne n hk]
    exact h.nvs k

theorem Sound.put_beside (h : Sound s) {j : Nat} {n : NVInfo} (hn : (s.lastNvs j).Kin n) :
    Beside s (ViewInfo.put s j n) := by
  refine ⟨h.put hn.1, rfl, rfl, fun _ _ h => h, fun k => ?_⟩
  by_cases hk : k = j
  · subst hk
    rw [put_lastNvs_self]
    exact hn.2
  · rw [put_lastNvs_of_ne n hk]

/-- Two operations of the `NV_info` of `j` that agree. -/
theorem onNv_agrees {op op' : NVEnv → Prog NVInfo α} {Q : α → NVInfo → Prop} {j : Nat}
    (h : Agrees (op (s.nvEnv cfg id)) (op' (s.nvEnv cfg id)) (s.lastNvs j) Q) :
    Agrees (onNv cfg id j op) (onNv cfg id j op') s fun a t => ∃ n, Q a n ∧ t = put s j n := by
  refine ⟨?_, Ensures.of_result (fun a ha => ?_) fun _ => trivial⟩
  · rw [onNv_apply, onNv_apply, h.1]
  · exact ⟨_, h.2.result.1 a ha, rfl⟩

theorem Beside.onNv (h : Beside s₀ s) {op op' : NVEnv → Prog NVInfo α} {j : Nat}
    (hop : Agrees (op (s.nvEnv cfg id)) (op' (s.nvEnv cfg id)) (s.lastNvs j)
      fun _ n => (s.lastNvs j).Kin n) :
    Agrees (onNv cfg id j op) (onNv cfg id j op') s fun _ t => Beside s₀ t := by
  refine (onNv_agrees hop).mono fun _ t ⟨n, hn, ht⟩ => ?_
  rw [ht]
  exact h.trans (h.sound.put_beside hn)

/-! ## Moving messages -/

theorem moveVC_agrees (hA : A.Lawful) {j i : Nat} {v : Int}
    (hv : ∀ vc, s₀.lastVcs i = some vc → vc.v = v → 0 < v ∧ (s₀.lastNvs j).v = v)
    (h : Beside s₀ s) :
    Agrees (moveVCWith cfg id A j v i) (moveVC cfg id j v i) s fun _ t => Beside s₀ t := by
  refine .get_bind ?_
  cases hvc : s.lastVcs i with
  | none => exact .pure h
  | some vc =>
    refine .when (fun heq => ?_) fun _ => h
    have heq : vc.v = v := by simpa using heq
    obtain ⟨hpos, hj⟩ := hv vc (h.lastVcs i vc hvc) heq
    have hview : vc.v = (s.lastNvs j).v := by rw [heq, h.nvs, hj]
    refine .bind (h.onNv (hA.vc_agrees (h.sound.nvs j) hview true true fun _ => heq ▸ hpos))
      fun added t ht => ?_
    refine .when (fun _ => .modify ⟨⟨ht.sound.nonneg, ht.sound.acks, ht.sound.nvs⟩,
      ht.v, ht.lastViews, fun k m hm => ?_, ht.nvs⟩) fun _ => ht
    by_cases hk : k = i
    · simp [hk] at hm
    · exact ht.lastVcs k m (by simpa [hk] using hm)

theorem moveAck_agrees (hA : A.Lawful) (hv : (s₀.lastNvs (cfg.primary s₀.v)).v = s₀.v) (i j : Nat)
    (h : Beside s₀ s) :
    Agrees (moveAckWith cfg id A i j) (moveAck cfg id i j) s fun _ t => Beside s₀ t := by
  refine .get_bind ?_
  cases hack : (s.vacks i).vacks j with
  | none => exact .pure h
  | some ack =>
    refine .when (fun heq => ?_) fun _ => h
    have heq : (s.vacks i).v = s.v := by simpa using heq
    have hview : ack.v = (s.lastNvs (cfg.primary s.v)).v := by
      rw [h.sound.acks i j ack hack, heq, h.nvs, h.v, hv]
    refine .bind (h.onNv (hA.ack_agrees (h.sound.nvs _) hview)) fun added t ht => ?_
    refine .when (fun _ => .modify ⟨⟨ht.sound.nonneg, fun k l a ha => ?_, ht.sound.nvs⟩,
      ht.v, ht.lastViews, ht.lastVcs, ht.nvs⟩) fun _ => ht
    by_cases hk : k = i
    · subst hk
      by_cases hl : l = j
      · simp [hl] at ha
      · simpa using ht.sound.acks k l a (by simpa [hl] using ha)
    · simpa [hk] using ht.sound.acks k l a (by simpa [hk] using ha)

theorem startNewView_agrees (hA : A.Lawful) (h : Sound s) (hpos : 0 < s.v)
    (hid : cfg.primary s.v = id) :
    Agrees (startNewViewWith cfg id A) (startNewView cfg id) s fun _ t => Sound t := by
  refine .get_bind (.assert_bind fun hle => ?_)
  refine .bind
    (onNv_agrees (.of_ensures (NVInfo.addNewView_uniform (h.nvs id) (NewView.new s.v)))) ?_
  rintro _ _ ⟨n, ⟨hn, hv⟩, rfl⟩
  have hnv : n.v = s.v := by
    rcases hv with ⟨hge, hv⟩ | ⟨-, hv⟩
    · exact hv.trans (le_antisymm (of_decide_eq_true hle) hge)
    · exact hv
  have hs := h.put (j := id) hn
  have hview : ((put s id n).lastNvs id).v = s.v := by
    rw [put_lastNvs_self]
    exact hnv
  refine .bind (.each (fun i _ u hu => moveVC_agrees hA (fun _ _ _ => ⟨hpos, hview⟩) hu) hs.beside)
    fun _ t ht => ?_
  have hp : ((put s id n).lastNvs (cfg.primary (put s id n).v)).v = (put s id n).v := by
    have hpv : (put s id n).v = s.v := rfl
    rw [hpv, hid, hview]
  refine (Agrees.each (fun i _ u hu => ?_) ht).mono fun _ _ hu => hu.sound
  exact .each (fun j _ w hw => moveAck_agrees hA hp i j hw) hu

/-! ## The operations -/

/-- A program that keeps what a run keeps. -/
abbrev Soundly (x : Prog ViewInfo α) : Prop := Holds Sound (fun _ => True) x

theorem Soundly.agrees {x : Prog ViewInfo α} (hx : Soundly x) (h : Sound s) :
    Agrees x x s fun _ t => Sound t :=
  .of_ensures (hx s h)

theorem discardOld_sound (h : Sound s) {v : Int} (hv : 0 ≤ v) :
    Sound (discardOld { s with v }) := by
  refine ⟨hv, fun i j a ha => ?_, fun k => ?_⟩
  · simp only [discardOld] at ha ⊢
    split
    · rename_i hlt
      rw [if_pos hlt] at ha
      cases ha
    · rename_i hge
      rw [if_neg hge] at ha
      exact h.acks i j a ha
  · simp only [discardOld]
    split
    · exact .clear _
    · exact h.nvs k

theorem ackOther_sound (vc : ViewChange) (i : Nat) : Soundly (ackOther cfg id vc i) := by
  refine .get_bind fun s => ?_
  cases s.lastVcs i with
  | none => exact .pure
  | some lvc =>
    exact .when fun _ => .modify_bind (fun s h => ⟨h.nonneg, h.acks, h.nvs⟩) (.modify
      fun s h => ⟨h.nonneg, h.acks, h.nvs⟩)

theorem viewChange_agrees (hA : A.Lawful) (h : Sound s) {v : Int} (hlt : s.v < v) (le : Int)
    (word : Nat → BitVec 64) (entry : Nat → ReqInfo) (digest : Int → Option Digest) :
    Agrees (viewChangeWith cfg id A v le word entry digest)
      (viewChange cfg id v le word entry digest) s fun _ t => Sound t := by
  have hpos : 0 < v := h.nonneg.trans_lt hlt
  have hd := discardOld_sound h hpos.le
  refine .modify_bind (.get_bind (.ofOption_bind
    fun vc _ => .modify_bind (.modify_bind (.ite (fun hp => ?_) fun _ => ?_))))
  · exact startNewView_agrees hA ⟨hd.nonneg, hd.acks, hd.nvs⟩ hpos hp
  · exact Soundly.agrees (.each (fun i => ackOther_sound vc i) _) ⟨hd.nonneg, hd.acks, hd.nvs⟩

variable {op : ViewOp}

theorem Beside.exactly (h : Beside s t) (op : ViewOp) : Sound t ∧ Exactly cfg op s t :=
  ⟨h.sound, fun j => .inl (by rw [h.lastViews]),
    fun j m hm => .inl (h.lastVcs j m hm), fun k => .inl (h.nvs k)⟩

/-- A view-change is counted under its view. -/
theorem Beside.counted (h : Beside s t) {vc : ViewChange} {verified digestOk : Bool}
    (hver : verified = true) :
    Sound { t with lastViews := Function.update t.lastViews vc.id vc.v } ∧
      Exactly cfg (.addViewChange vc verified digestOk)
        s { t with lastViews := Function.update t.lastViews vc.id vc.v } := by
  subst hver
  refine ⟨⟨h.sound.nonneg, h.sound.acks, h.sound.nvs⟩,
    fun j => ?_, fun j m hm => .inl (h.lastVcs j m hm), fun k => .inl (h.nvs k)⟩
  by_cases hj : j = vc.id
  · exact .inr ⟨vc, rfl, hj.symm, by simp [hj]⟩
  · exact .inl (by simp [hj, h.lastViews])

theorem matchViewChange_agrees (hA : A.Lawful) (h : Sound s) {vc : ViewChange}
    {verified digestOk : Bool} (hpos : verified = true → 0 < vc.v)
    (hv : (s.lastNvs (cfg.primary vc.v)).v = vc.v) :
    Agrees (matchViewChangeWith cfg id A vc vc.v verified digestOk)
      (matchViewChange cfg id vc vc.v verified digestOk) s
      fun _ t => Sound t ∧ Exactly cfg (.addViewChange vc verified digestOk) s t := by
  refine .bind (h.beside.onNv (hA.vc_agrees (h.nvs _) hv.symm verified digestOk hpos))
    fun stored t ht => .get_bind ?_
  refine .bind (Q := fun _ u => Beside s u) (.when (fun hc => .each (fun i _ u hu => ?_) ht)
    fun _ => ht) fun _ u hu => ?_
  · obtain ⟨-, hview⟩ : (stored = true ∧ id = cfg.primary t.v) ∧ vc.v = t.v := by simpa using hc
    have hs : vc.v = s.v := hview.trans ht.v
    exact moveAck_agrees hA (by rw [← hs]; exact hv) i vc.id hu
  · refine .modify_bind (.pure ?_)
    split
    · rename_i hc
      exact hu.counted (Bool.and_eq_true_iff.1 hc).1
    · exact hu.exactly _

/-- A view-change is stored under its view. -/
theorem storeViewChange_exactly (h : Sound s) {vc : ViewChange} {digestOk : Bool} :
    Ensures (storeViewChange cfg id vc vc.v) s (fun _ t =>
        Sound t ∧ Exactly cfg (.addViewChange vc true digestOk) s t)
      fun _ => True := by
  have hexact : ∀ t : ViewInfo, Sound t → t.lastVcs = Function.update s.lastVcs vc.id (some vc) →
      t.lastViews = Function.update s.lastViews vc.id vc.v → t.lastNvs = s.lastNvs →
      Sound t ∧ Exactly cfg (.addViewChange vc true digestOk) s t := by
    intro t ht hvcs hviews hnvs
    refine ⟨ht, fun j => ?_, fun j m hm => ?_, fun k => .inl (by rw [hnvs])⟩
    · by_cases hj : j = vc.id
      · exact .inr ⟨vc, rfl, hj.symm, by simp [hviews, hj]⟩
      · exact .inl (by simp [hviews, hj])
    · by_cases hj : j = vc.id
      · subst hj
        obtain rfl : vc = m := by simpa [hvcs] using hm
        exact .inr ⟨rfl, rfl, by simp [hviews]⟩
      · exact .inl (by simpa [hvcs, hj] using hm)
  refine Reaches.modify_bind trivial
    (Reaches.get_bind (Reaches.when (fun _ => Reaches.assert_bind trivial fun _ => ?_) fun _ => ?_))
  · exact Reaches.modify_bind trivial
      (Reaches.modify trivial (hexact _ ⟨h.nonneg, h.acks, h.nvs⟩ rfl rfl rfl))
  · exact hexact _ ⟨h.nonneg, h.acks, h.nvs⟩ rfl rfl rfl

theorem addViewChange_agrees (hA : A.Lawful) (h : Sound s) {vc : ViewChange}
    {verified digestOk : Bool} (hpos : verified = true → 0 < vc.v)
    (hok : fullWidth cfg id s (.addViewChange vc verified digestOk) = true) :
    Agrees (addViewChangeWith cfg id A vc verified digestOk)
      (addViewChange cfg id vc verified digestOk) s
      fun _ t => Sound t ∧ Exactly cfg (.addViewChange vc verified digestOk) s t := by
  have hsame : Sound s ∧ Exactly cfg (.addViewChange vc verified digestOk) s s := h.beside.exactly _
  have hok : (toInt vc.v = vc.v ∨ toInt vc.v < s.v) ∨
    (s.lastNvs (cfg.primary (toInt vc.v))).v ≠ toInt vc.v ∧
      (toInt vc.v ≤ s.lastViews vc.id ∨ verified = false) := by
    simpa [fullWidth] using hok
  refine .get_bind (.ite (fun _ => .pure hsame) fun hge => .ite (fun hv => ?_) fun hv => ?_)
  · have hw : toInt vc.v = vc.v :=
      hok.elim (fun h1 => h1.resolve_right hge) fun h2 => absurd hv h2.1
    rw [hw] at hv ⊢
    exact matchViewChange_agrees hA h hpos hv
  · refine .assert_bind fun _ => .ite (fun hnew => ?_) fun _ => .pure hsame
    obtain ⟨hlt, rfl⟩ : s.lastViews vc.id < toInt vc.v ∧ verified = true := by simpa using hnew
    have hw : toInt vc.v = vc.v := hok.elim (fun h1 => h1.resolve_right hge)
      fun h2 => absurd hlt (not_lt.2 (h2.2.resolve_right nofun))
    rw [hw]
    exact .bind (.of_ensures (storeViewChange_exactly h)) fun _ t ht => .pure ht

theorem addNewView_agrees (hA : A.Lawful) (h : Sound s) {nv : NewView} {verified : Bool}
    (hok : fullWidth cfg id s (.addNewView nv verified) = true) :
    Agrees (addNewViewWith cfg id A nv verified) (addNewView cfg id nv verified) s
      fun _ t => Sound t ∧ Exactly cfg (.addNewView nv verified) s t := by
  refine .get_bind (.when (fun hc => ?_) fun _ => h.beside.exactly _)
  have hfit : toInt nv.v = nv.v ∨ ∀ i < cfg.n, ∀ vc, s.lastVcs i = some vc → vc.v ≠ toInt nv.v := by
    rw [fullWidth, hc] at hok
    simpa [Option.any_eq_false] using hok
  obtain ⟨⟨-, rfl⟩, hlt⟩ : (s.v ≤ toInt nv.v ∧ verified = true) ∧
    (s.lastNvs (nv.id cfg)).v < nv.v := by simpa using hc
  refine .bind (onNv_agrees (.of_ensures (NVInfo.addNewView_uniform (h.nvs _) nv))) ?_
  rintro stored _ ⟨n, ⟨hn, hv⟩, rfl⟩
  have hnv : n.v = nv.v := hv.elim (fun h0 => absurd h0.1 (not_le.2 hlt)) fun h1 => h1.2
  have hs := h.put (j := nv.id cfg) hn
  have hgot : ∀ k, ((put s (nv.id cfg) n).lastNvs k).v = (s.lastNvs k).v ∨
    nv.id cfg = k ∧ ((put s (nv.id cfg) n).lastNvs k).v = nv.v := by
    intro k
    by_cases hk : k = nv.id cfg
    · subst hk
      rw [put_lastNvs_self]
      exact .inr ⟨rfl, hnv⟩
    · rw [put_lastNvs_of_ne n hk]
      exact .inl rfl
  have hexact : ∀ u, Beside (put s (nv.id cfg) n) u →
    Sound u ∧ Exactly cfg (.addNewView nv true) s u := fun u hu =>
    ⟨hu.sound, fun j => .inl (by rw [hu.lastViews]; rfl),
      fun j m hm => .inl (hu.lastVcs j m hm), fun k => by
      rw [hu.nvs k]
      exact (hgot k).imp_right fun hk => ⟨nv, rfl, hk⟩⟩
  refine .when (fun _ => (Agrees.each (fun i hi u hu => moveVC_agrees hA (fun vc hvc heq => ?_) hu)
    hs.beside).mono fun _ u hu => hexact u hu)
    fun _ => hexact _ hs.beside
  have hw : toInt nv.v = nv.v :=
    hfit.resolve_right fun hno => hno i (List.mem_range.1 hi) vc hvc heq
  rw [hw]
  refine ⟨(h.nvs _).nonneg.trans_lt hlt, ?_⟩
  rw [put_lastNvs_self]
  exact hnv

/-- What `NV_info::add` returns. -/
theorem addAck_answers (V : NVEnv) (a : ViewChangeAck) (n : NVInfo) :
    Ensures (NVInfo.addAck V a) n (fun b _ => b = answers V n a) fun _ => True := by
  refine Reaches.get_bind (Reaches.assert_bind trivial
    fun _ => Reaches.ite (fun hc => Reaches.pure (by simp [answers, hc])) fun hc => ?_)
  refine Reaches.ofOption_bind trivial fun nv hnv => ?_
  have hans : answers V n a = (NVInfo.ackDigest V n nv a.vcid).isSome := by
    have hc : n.isComplete = false := by simpa using hc
    simp [answers, hc, hnv]
  rw [hans]
  cases NVInfo.ackDigest V n nv a.vcid with
  | none => exact Reaches.pure rfl
  | some d =>
    refine Ensures.bind (Q := fun _ _ => True) (Ensures.of_result (fun _ _ => trivial)
      fun _ => trivial) fun _ _ _ => ?_
    exact Reaches.pure rfl

theorem matchAck_agrees (hA : A.Lawful) (h : Sound s) (a : ViewChangeAck) {w : Int}
    (hv : (s.lastNvs (cfg.primary w)).v = w → a.v = w) :
    Agrees (matchAckWith cfg id A a w) (matchAck cfg id a w) s
      fun added t => Beside s t ∧ t.vacks = s.vacks ∧
      added = ((s.lastNvs (cfg.primary w)).v == w &&
          answers (s.nvEnv cfg id) (s.lastNvs (cfg.primary w)) a) := by
  refine .get_bind (.ite (fun hn => ?_) fun hn => .pure ⟨h.beside, rfl, by simp [hn]⟩)
  have hkin := hA.ack_agrees (V := s.nvEnv cfg id) (h.nvs (cfg.primary w)) ((hv hn).trans hn.symm)
  refine (onNv_agrees ⟨hkin.1, hkin.2.and (addAck_answers _ a _) |>.imp (fun _ _ hq => hq)
    fun _ _ => trivial⟩).mono ?_
  rintro added _ ⟨n, ⟨hn', rfl⟩, rfl⟩
  exact ⟨h.put_beside hn', rfl, by simp [hn]⟩

/-- An acknowledgement for the current view is filed under its view, beside others for that view. -/
theorem storeAck_beside (h : Beside s t) {a : ViewChangeAck}
    (hok : (t.vacks a.id).v ≤ toInt a.v → a.v = t.v ∧ toInt a.v = t.v) :
    Beside s (storeAck a (toInt a.v) t) := by
  unfold storeAck
  dsimp only
  by_cases htag : (t.vacks a.id).v ≤ toInt a.v
  · rw [if_pos htag]
    obtain ⟨hav, hw⟩ := hok htag
    refine ⟨⟨h.sound.nonneg, fun i j b hb => ?_, h.sound.nvs⟩, h.v, h.lastViews, h.lastVcs, h.nvs⟩
    by_cases hi : i = a.id
    · subst hi
      by_cases hj : j = a.vcid
      · obtain rfl : a = b := by simpa [hj] using hb
        simpa using hav
      · simp only [Function.update_self, Function.update_of_ne hj] at hb ⊢
        split at hb
        · cases hb
        · rename_i hge
          rw [h.sound.acks _ j b hb]
          omega
    · simp only [Function.update_of_ne hi] at hb ⊢
      exact h.sound.acks i j b hb
  · rw [if_neg htag]
    exact h

theorem addAck_agrees (hA : A.Lawful) (h : Sound s) {a : ViewChangeAck} {verified : Bool}
    (hok : fullWidth cfg id s (.addAck a verified) = true) :
    Agrees (addAckWith cfg id A a verified) (addAck cfg id a verified) s
      fun _ t => Sound t ∧ Exactly cfg (.addAck a verified) s t := by
  refine .when (fun hver => ?_) fun _ => h.beside.exactly _
  subst hver
  simp only [fullWidth, Bool.and_eq_true, Bool.or_eq_true,
    bne_iff_ne, beq_iff_eq, decide_eq_true_eq] at hok
  obtain ⟨hnv, hstore⟩ := hok
  refine .assert_bind fun _ => .bind (matchAck_agrees hA h a
    fun he => (hnv.resolve_left (absurd he)).symm) fun added t ⟨ht, hvacks, hadd⟩ => ?_
  refine .when (fun hc => .modify ((storeAck_beside ht fun htag => ?_).exactly _))
    fun _ => ht.exactly _
  obtain ⟨rfl, hid⟩ : added = false ∧ id = cfg.primary (toInt a.v) := by simpa using hc
  -- it was not taken, and has to wait
  rw [hvacks] at htag
  have hno : ¬((s.lastNvs (cfg.primary (toInt a.v))).v = toInt a.v ∧
      answers (s.nvEnv cfg id) (s.lastNvs (cfg.primary (toInt a.v))) a = true) := by
    rw [eq_comm, Bool.and_eq_false_iff] at hadd
    rintro ⟨h1, h2⟩
    simp [h1, h2] at hadd
  have hnow := hstore.resolve_left fun hl => hl.elim (fun h1 => h1.elim hno fun h2 => h2 hid)
    fun hlt => absurd htag (not_le.2 hlt)
  rw [ht.v]
  exact hnow

theorem staleOne_agrees (hA : A.Lawful) (h : Sound s) (i : Nat) :
    Agrees (staleOneWith cfg id A i) (staleOne cfg id i) s fun _ t => Sound t := by
  refine .modify_bind (.bind (onNv_agrees (nvMarkStale_agrees hA (h.nvs i))) ?_)
  rintro vc _ ⟨n, hn, rfl⟩
  have hs : Sound (put s i n) := h.put hn
  refine .modify ⟨hs.nonneg, fun k j a ha => ?_, hs.nvs⟩
  by_cases hk : k = i
  · simp [hk, noAcks] at ha
  · simp only [Function.update_of_ne hk] at ha ⊢
    exact hs.acks k j a ha

/-- An operation of an `NV_info` that stores nothing. -/
theorem onNv_sound {op : NVEnv → Prog NVInfo α} (j : Nat) (hop : ∀ V p, NVInfo.Polled p (op V)) :
    Soundly (onNv cfg id j op) := by
  intro s h
  refine Ensures.of_result (fun a ha => ?_) fun _ => trivial
  exact h.put ((h.nvs j).of_poll
    ((hop (s.nvEnv cfg id) (s.lastNvs j).poll (s.lastNvs j) rfl).result.1 a ha))

/-- **One operation** calls the two `add` for their views only, and keeps what a run keeps. -/
theorem viewProg_agrees (hA : A.Lawful) (h : Sound s) (hcall : callable cfg s op = true)
    (hok : fullWidth cfg id s op = true) :
    Agrees (viewProgWith cfg id A op) (viewProg cfg id op) s
      fun _ t => Sound t ∧ (isMessage op = true → Exactly cfg op s t) := by
  have hquiet : ∀ {x : Prog ViewInfo Unit}, isMessage op = false → Soundly x →
      Agrees x x s fun _ t => Sound t ∧ (isMessage op = true → Exactly cfg op s t) :=
    fun hm hx => (hx.agrees h).mono fun _ t ht =>
      ⟨ht, fun hm' => Bool.noConfusion (hm.symm.trans hm')⟩
  cases op with
  | viewChange v le word entry digest =>
    exact (viewChange_agrees hA h (of_decide_eq_true hcall) le word entry digest).mono
      fun _ t ht => ⟨ht, nofun⟩
  | addViewChange vc verified digestOk =>
    refine .bind (addViewChange_agrees hA h (fun hver => ?_) hok)
      fun _ t ht => .pure ⟨ht.1, fun _ => ht.2⟩
    rw [callable, hver] at hcall
    exact (of_decide_eq_true (Bool.and_eq_true_iff.1 hcall).1).2.2.1
  | addNewView nv verified =>
    exact (addNewView_agrees hA h hok).mono fun _ t ht => ⟨ht.1, fun _ => ht.2⟩
  | addAck a verified => exact (addAck_agrees hA h hok).mono fun _ t ht => ⟨ht.1, fun _ => ht.2⟩
  | markStale =>
    refine (Agrees.each (fun i _ t ht => staleOne_agrees hA ht i) h).mono fun _ t ht => ⟨ht, nofun⟩
  | addComplete pp =>
    refine hquiet rfl (.get_bind fun _ => .assert_bind (fun _ _ => trivial)
      fun _ => .ofOption_bind (fun _ _ => trivial) fun _ => ?_)
    exact .assert_bind (fun _ _ => trivial) fun _ => .modify fun s h => ⟨h.nonneg, h.acks, h.nvs⟩
  | addIncomplete n d =>
    refine hquiet rfl (.get_bind fun _ => .ofOption_bind (fun _ _ => trivial) fun _ => ?_)
    exact .modify fun s h => ⟨h.nonneg, h.acks, h.nvs⟩
  | markStable ls =>
    refine hquiet rfl (.modify_bind (fun s h => ⟨h.nonneg, h.acks, h.nvs⟩) (.get_bind fun s => ?_))
    exact onNv_sound _ fun V p => NVInfo.markStable_polled V p ls
  | addMissing pp digestOk =>
    exact hquiet rfl (.get_bind fun s => onNv_sound _
      fun V p => NVInfo.addMissing_polled V p pp digestOk)
  | addMissingPrepare m =>
    exact hquiet rfl (.get_bind fun s => onNv_sound _
      fun V p => NVInfo.addMissingPrepare_polled V p m)
  | fetchRequest n =>
    exact hquiet rfl (.get_bind fun s =>
      .bind (onNv_sound _ fun V p => NVInfo.fetchRequest_polled V p n) fun _ => .pure)
  | sendProofs n v dest =>
    refine hquiet rfl (.modify fun s h => ?_)
    split
    · exact h
    · exact ⟨h.nonneg, h.acks, h.nvs⟩

theorem viewStep_sound (h : Sound s) (hok : fullWidth cfg id s op = true)
    (hst : viewStep cfg id s op = some t) : Sound t := by
  unfold viewStep at hst
  split at hst
  · rename_i hcall
    have hx := (viewProg_agrees (A := .code) ⟨fun _ _ _ _ _ _ => rfl, fun _ _ _ _ => rfl⟩
      h hcall hok).2.result.1
    cases hr : viewProg cfg id op s with
    | mk o u =>
      rw [hr] at hst hx
      cases o with
      | none => cases hst
      | some r =>
        cases hst
        exact (hx r rfl).1
  · cases hst

theorem sound_new : Sound (ViewInfo.new cfg) := ⟨le_rfl, nofun, fun _ => .new⟩

/-- What `View_info` does with the views of its arguments. -/
structure AtFullWidth (cfg : Cfg) (id : Nat) (op : ViewOp) (s : ViewInfo) : Prop where
  /-- `m->view() == v` at every call of the two `add` of `NV_info`. -/
  precondition : ∀ A : Adds, A.Lawful → viewProgWith cfg id A op s = viewProg cfg id op s
  /-- A message is counted and stored under its view. -/
  exact : isMessage op = true → ∀ t, viewProg cfg id op s = (some (), t) → Exactly cfg op s t
  /-- So is an acknowledgement, and a view-change that is given to an `NV_info`. -/
  filed : ∀ t, viewProg cfg id op s = (some (), t) → Sound t

/-- **Views are compared at full width** in a run in which no narrowed view plays a part. -/
theorem run_atFullWidth {ops : List ViewOp} {s : ViewInfo} {op : ViewOp}
    (hops : Run.Meets (viewStep cfg id) (fun s op => fullWidth cfg id s op = true)
      (ViewInfo.new cfg) ops)
    (hrun : Run.run (viewStep cfg id) (ViewInfo.new cfg) ops = some s)
    (hcall : callable cfg s op = true) (hok : fullWidth cfg id s op = true) :
    AtFullWidth cfg id op s := by
  have hs := Run.invariant (I := Sound) (fun s op t h hok hst => viewStep_sound h hok hst)
    sound_new hops hrun
  have hret : ∀ t, viewProg cfg id op s = (some (), t) →
    Sound t ∧ (isMessage op = true → Exactly cfg op s t) := by
    intro t ht
    have hx := (viewProg_agrees (A := .code) ⟨fun _ _ _ _ _ _ => rfl, fun _ _ _ _ => rfl⟩
      hs hcall hok).2.result.1
    rw [ht] at hx
    exact hx () rfl
  exact ⟨fun A hA => (viewProg_agrees hA hs hcall hok).1,
    fun hm t ht => (hret t ht).2 hm, fun t ht => (hret t ht).1⟩

/-- Replica 1 has entered view 1, whose primary it is, and gets the view-change of replica 3. -/
theorem run_atFullWidth_primary : ∃ s, Run.run (viewStep Replica.fourReplicas 1)
    (ViewInfo.new Replica.fourReplicas) [enterOne] = some s ∧
    AtFullWidth Replica.fourReplicas 1 (.addViewChange (firstChange 3) true true) s := by
  obtain ⟨s, hs, h⟩ := (Option.any_eq_true _ _).1
    (show (Run.run (viewStep Replica.fourReplicas 1) (ViewInfo.new Replica.fourReplicas)
    [enterOne]).any (fun s =>
      callable Replica.fourReplicas s (.addViewChange (firstChange 3) true true) &&
      fullWidth Replica.fourReplicas 1 s (.addViewChange (firstChange 3) true true)) =
        true by decide +kernel)
  obtain ⟨hcall, hok⟩ := Bool.and_eq_true_iff.1 h
  exact ⟨s, hs, run_atFullWidth (by decide +kernel) hs hcall hok⟩

/-- The view-change of replica 3 for view `2 ^ 32 + 1`. -/
def wideChange : ViewChange := { firstChange 3 with v := 2 ^ 32 + 1 }

def wideOp : ViewOp := .addViewChange wideChange true true

/-- The code's `add`, and one that does not stop where the view is another one. -/
def lenient : Adds where
  vc V m verified digestOk n :=
    if m.v = n.v then NVInfo.addViewChange V m verified digestOk n else (some true, n)
  ack := NVInfo.addAck

/-- Replica 0 counts it for view 1; and once it has the new-view message for view 1, it gives it to
the `NV_info` of that view. -/
theorem wide_change_narrowed :
    callable Replica.fourReplicas (ViewInfo.new Replica.fourReplicas) wideOp = true ∧
    ((viewProg Replica.fourReplicas 0 wideOp).after
        (ViewInfo.new Replica.fourReplicas)).lastViews 3 = 1 ∧
    ¬AtFullWidth Replica.fourReplicas 0 wideOp (ViewInfo.new Replica.fourReplicas) ∧
    ∃ s, Run.run (viewStep Replica.fourReplicas 0) (ViewInfo.new Replica.fourReplicas)
      [.addNewView threeNewView true] = some s ∧
      callable Replica.fourReplicas s wideOp = true ∧
      ∃ A, A.Lawful ∧ viewProgWith Replica.fourReplicas 0 A wideOp s ≠
        viewProg Replica.fourReplicas 0 wideOp s := by
  set s₀ := ViewInfo.new Replica.fourReplicas with hs₀
  have hcount : ((viewProg Replica.fourReplicas 0 wideOp).after s₀).lastViews 3 = 1 := by
    decide +kernel
  refine ⟨by decide +kernel, hcount, fun h => ?_, ?_⟩
  · have hret : (viewProg Replica.fourReplicas 0 wideOp s₀).1 = some () := by decide +kernel
    have hex := (h.exact rfl _ (Prod.ext hret rfl)).lastViews 3
    rcases hex with h0 | ⟨m, hm, -, hv⟩
    · exact absurd (hcount.symm.trans h0) (by decide +kernel)
    · cases hm
      exact absurd (hcount.symm.trans hv) (by decide)
  · obtain ⟨s, hs, h⟩ := (Option.any_eq_true _ _).1
      (show (Run.run (viewStep Replica.fourReplicas 0) s₀ [.addNewView threeNewView true]).any
      (fun s => callable Replica.fourReplicas s wideOp &&
        (viewProgWith Replica.fourReplicas 0 lenient wideOp s).1.isSome &&
        (viewProg Replica.fourReplicas 0 wideOp s).1.isNone) = true by decide +kernel)
    obtain ⟨h1, hcode⟩ := Bool.and_eq_true_iff.1 h
    obtain ⟨hcall, hlen⟩ := Bool.and_eq_true_iff.1 h1
    refine ⟨s, hs, hcall, lenient,
      ⟨fun V m verified digestOk n hv => ?_, fun _ _ _ _ => rfl⟩, fun heq => ?_⟩
    · simp [lenient, hv]
    · rw [heq] at hlen
      rw [Option.isNone_iff_eq_none.1 hcode] at hlen
      cases hlen

end ViewInfo

end TinyBFT
