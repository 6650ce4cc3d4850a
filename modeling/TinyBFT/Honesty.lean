import TinyBFT.Backing

/-!
# The handlers keep what the votes rest on

`HInv` over the handlers of a replica. A handler whose steps are `Apart` keeps it as it stands; the
others send prepares or new-view messages, change the certificates or create pre-prepares, and each
of these steps has its lemma in `Backing`.

| here | there |
| --- | --- |
| `enterView_hinv` | `send_view_change`: the view-change message is sent before anything else (`View_info.cc:242-286`) |
| `processNewView_hinv` | `process_new_view` (`Replica.cc:1118-1204`): the primary announces the new view, then creates |
| `commitNext_hinv` | `execute_committed`: what is executed was prepared (`Replica.cc:1400-1466`) |
| `sendCommit_hinv` | `send_commit`: the commit is sent before `add_mine` is asked (`Replica.cc:620-644`) |
-/

namespace TinyBFT

namespace ViewInfo

open Prog (Ensures Reaches Within Always Composes Holds get modify assert ofOption when each)

variable {cfg : Cfg} {id : Nat} {VC VC' : ViewChange → Prop} {RE : Nat → Int → Prop}

/-- Whatever else occurs, and whatever becomes of the `NV_info`s after the call was made. -/
theorem Fair.later {nvs nvs' : Nat → NVInfo} {o : Out} (h : Fair cfg id VC RE nvs o)
    (hVC : ∀ vc, VC vc → VC' vc) (hn : isPnv o = false ∨ nvs' = nvs) :
    Fair cfg id VC' RE nvs' o := by
  cases o with
  | send dest m =>
    cases m with
    | viewChange vc => exact ⟨h.1, hVC vc h.2⟩
    | _ => exact h
  | call c =>
    cases c with
    | sendStatus => trivial
    | processNewView min d max ms =>
      rcases hn with hn | rfl
      · cases hn
      · exact h

/-! ## What is to be sent comes in order -/

/-- What was to be sent before comes first. -/
def Appends (s t : ViewInfo) : Prop := s.outs <+: t.outs

instance : IsPreorder ViewInfo Appends where
  refl _ := List.prefix_rfl
  trans _ _ _ := List.IsPrefix.trans

theorem out_appends (o : Out) : Always Appends (out o) :=
  .modify fun s => List.prefix_append s.outs [o]

theorem onNv_appends {α : Type} (j : Nat) (op : NVEnv → Prog NVInfo α) :
    Always Appends (onNv cfg id j op) := fun s => by
  have h : Appends s (onNv cfg id j op s).2 := List.prefix_append s.outs _
  exact Ensures.of_result (fun _ _ => h) fun _ => h

theorem quiet_appends {g : ViewInfo → ViewInfo} (hg : ∀ s, (g s).outs = s.outs) :
    Always Appends (modify g) :=
  .modify fun s => ⟨[], by rw [List.append_nil, hg s]⟩

theorem moveVC_appends (j : Nat) (v : Int) (i : Nat) : Always Appends (moveVC cfg id j v i) := by
  refine .get_bind fun s => ?_
  cases s.lastVcs i with
  | none => exact .pure
  | some vc =>
    exact .when (.bind (onNv_appends j _) fun added => .when (quiet_appends fun _ => rfl))

theorem moveAck_appends (i k : Nat) : Always Appends (moveAck cfg id i k) := by
  refine .get_bind fun s => ?_
  cases (s.vacks i).vacks k with
  | none => exact .pure
  | some ack =>
    exact .when (.bind (onNv_appends _ _) fun added => .when (quiet_appends fun _ => rfl))

theorem ackOther_appends (vc : ViewChange) (i : Nat) : Always Appends (ackOther cfg id vc i) := by
  refine .get_bind fun s => ?_
  cases s.lastVcs i with
  | none => exact .pure
  | some lvc => exact .when (.bind (quiet_appends fun _ => rfl) fun _ => out_appends _)

theorem startNewView_appends : Always Appends (startNewView cfg id) :=
  .get_bind fun _ => .assert_bind (.bind (onNv_appends _ _)
    fun _ => .bind (.each (fun i => moveVC_appends id _ i) _) fun _ =>
    .each (fun i => .each (fun k => moveAck_appends i k) _) _)

/-- The view-change message that is built is sent before anything else. -/
theorem viewChange_first {s : ViewInfo} (houts : s.outs = []) (v le : Int) (word : Nat → BitVec 64)
    (entry : Nat → ReqInfo) (digest : Int → Option Digest) {vc : ViewChange}
    (hvc : (discardOld { s with v }).buildViewChange cfg id word entry le digest = some vc) :
    ∃ rest, ((viewChange cfg id v le word entry digest) s).2.outs =
      .send none (.viewChange vc) :: rest := by
  have hall : Always Appends (if cfg.primary v = id then startNewView cfg id
    else each (ackOther cfg id vc) (List.range cfg.n)) :=
    .ite startNewView_appends (.each (fun i => ackOther_appends vc i) _)
  have hempty : (discardOld { s with v }).outs = [] := houts
  have hstart : viewChange cfg id v le word entry digest s =
      (if cfg.primary v = id then startNewView cfg id
        else each (ackOther cfg id vc) (List.range cfg.n))
        { discardOld { s with v } with
          outs := (discardOld { s with v }).outs ++ [.send none (.viewChange vc)]
          lastVcs := Function.update (discardOld { s with v }).lastVcs id (some vc)
          lastViews := Function.update (discardOld { s with v }).lastViews id v } := by
    change (ofOption ((discardOld { s with v }).buildViewChange cfg id word entry le digest) >>= _)
      (discardOld { s with v }) = _
    rw [hvc]
    rfl
  rw [hstart]
  obtain ⟨rest, hrest⟩ := hall.result _
  refine ⟨rest, hrest.symm.trans ?_⟩
  dsimp only
  rw [hempty]
  rfl

/-- Where no view-change message can be built, nothing is sent. -/
theorem viewChange_none {s : ViewInfo} (v le : Int) (word : Nat → BitVec 64) (entry : Nat → ReqInfo)
    (digest : Int → Option Digest)
    (hvc : (discardOld { s with v }).buildViewChange cfg id word entry le digest = none) :
    (viewChange cfg id v le word entry digest) s = (none, discardOld { s with v }) := by
  change (ofOption ((discardOld { s with v }).buildViewChange cfg id word entry le digest) >>= _)
    (discardOld { s with v }) = _
  rw [hvc]
  rfl

end ViewInfo

namespace Replica

open Prog (Ensures Reaches Within Always Composes Holds get modify assert ofOption when each)
open ViewInfo (pnvOuts Fair isPnv)
open PreparedCert (Blank Calm Sane Lasting)
open Certificate (AllVals Counts)

variable {cfg : Cfg} {id : Nat} {H : Heard} {r : Int → Prop} {k : Option Int} {q : Nat} {v : Int}
    {base s t u : Replica} {α : Type}
  {h : NVCall → Prog Replica Unit} {n : Int}

/-! ## Programs that say nothing new -/

theorem emit_apart {dest : Option Nat} {m : Msg} (hm : Plain (dest, m)) :
    Always Apart (emit dest m) :=
  .modify fun s => ⟨rfl, rfl, rfl, rfl, rfl, rfl, rfl, le_rfl,
    [(dest, m)], rfl, fun o ho => by rw [List.mem_singleton.1 ho]; exact hm⟩

theorem emitOpt_apart {dest : Option Nat} {m : Option Msg}
    (hm : ∀ x, m = some x → Plain (dest, x)) : Always Apart (emitOpt dest m) := by
  cases m with
  | none => exact .pure
  | some x => exact emit_apart (hm x rfl)

section Quiet

variable (cfg)

theorem fetchP_apart (n : Int) : Always Apart (fetchP cfg n) := .get_bind fun _ => .ofOption

theorem fetchC_apart (n : Int) : Always Apart (fetchC cfg n) := .get_bind fun _ => .ofOption

theorem fetchE_apart (n : Int) : Always Apart (fetchE cfg n) := .get_bind fun _ => .ofOption

theorem setE_apart (n : Int) (c : Certificate Checkpoint) : Always Apart (setE cfg n c) :=
  .modify fun _ => .of_eq rfl rfl rfl rfl rfl rfl rfl le_rfl rfl

theorem onState_apart (op : State → Option State) : Always Apart (onState op) :=
  .get_bind fun _ => .ofOption_bind fun _ => .modify
    fun _ => .of_eq rfl rfl rfl rfl rfl rfl rfl le_rfl rfl

theorem prepared_apart (n : Int) : Always Apart (prepared cfg n) :=
  .bind (fetchP_apart cfg n) fun _ => .ofOption_bind fun _ => .pure

theorem sendStatus_apart : Always Apart (sendStatus cfg) := by
  refine .get_bind fun s => .when (.modify_bind (fun _ =>
    .of_eq rfl rfl rfl rfl rfl rfl rfl le_rfl rfl) (.when (.bind (.when ?_) fun _ => ?_)))
  · exact .each (fun n => .bind (fetchP_apart cfg n)
      fun pc => .ofOption_bind fun _ => .when (.bind (fetchC_apart cfg n) fun _ => .pure)) _
  · exact emit_apart trivial

theorem staleE_apart (n : Int) : Always Apart (staleE cfg n) :=
  .when (.bind (fetchE_apart cfg n) fun _ => .ofOption_bind fun _ => setE_apart cfg n _)

theorem ownStable_apart (n : Int) : Always Apart (ownStable cfg id n) := by
  refine .bind (fetchE_apart cfg n) fun e => ?_
  cases e.mine with
  | some _ => exact setE_apart cfg n _
  | none => exact .get_bind fun s => .ofOption_bind fun r => setE_apart cfg n _

theorem moveCkpt_apart (newLs : Int) (i : Nat) : Always Apart (moveCkpt cfg id newLs i) := by
  refine .get_bind fun s => ?_
  cases s.sset i with
  | none => exact .pure
  | some c =>
    refine .ite (.modify_bind (fun _ => .of_eq rfl rfl rfl rfl rfl rfl rfl le_rfl rfl) .pure)
      (.ite ?_ .pure)
    refine .bind (fetchE_apart cfg c.seqno) fun cs =>
      .modify_bind (fun _ => .of_eq rfl rfl rfl rfl rfl rfl rfl le_rfl rfl) ?_
    exact .ofOption_bind fun r => .bind (setE_apart cfg _ _) fun _ => .pure

theorem moveCkpts_apart : ∀ (is : List Nat) (newLs : Int), Always Apart (moveCkpts cfg id is newLs)
  | [], _ => .pure
  | i :: is, newLs => .bind (moveCkpt_apart cfg newLs i) fun newLs => moveCkpts_apart is newLs

theorem haveCkpt_apart (n : Int) : Always Apart (haveCkpt cfg n) :=
  .get_bind fun _ => .ite (.bind (fetchE_apart cfg n) fun _ => .pure) .pure

theorem rollback_apart : Always Apart (rollback cfg) :=
  .get_bind fun _ => .when (.assert_bind (.ofOption_bind
    fun _ => .modify fun _ => .of_eq rfl rfl rfl rfl rfl rfl rfl le_rfl rfl))

theorem checkpointAbove_apart (m : Checkpoint) : Always Apart (checkpointAbove cfg m) := by
  refine .get_bind fun s => .ite (sendStatus_apart cfg)
    (.when (.modify_bind (fun _ => .of_eq rfl rfl rfl rfl rfl rfl rfl le_rfl rfl) ?_))
  exact .get_bind fun t =>
    .when (.bind (rollback_apart cfg) fun _ => .get_bind fun _ => onState_apart _)

theorem sendFetched_apart (c : Int) : Always Apart (sendFetched cfg id c) :=
  .get_bind fun _ => .bind (fetchE_apart cfg c)
    fun _ => .ofOption_bind fun _ => .bind (setE_apart cfg c _) fun _ => emit_apart trivial

theorem retransmitCkpt_apart (dest : Nat) (n : Int) : Always Apart (retransmitCkpt cfg dest n) := by
  refine .when (.bind (fetchE_apart cfg n) fun e => ?_)
  cases e.mine with
  | none => exact .pure
  | some c => exact .bind (emit_apart trivial) fun _ => .get_bind fun _ => .assert

theorem retransmitAck_apart (m : StatusMsg) (i : Nat) : Always Apart (retransmitAck m i) := by
  refine .get_bind fun s => ?_
  cases s.vi.myVacks i with
  | none => exact .pure
  | some vca => exact .when (emit_apart trivial)

theorem takeBatch_apart : Always Apart (takeBatch cfg) :=
  .get_bind fun _ => .modify_bind (fun _ => .of_eq rfl rfl rfl rfl rfl rfl rfl le_rfl rfl) .pure

/-- A message of the current view and in the window changes nothing. -/
theorem inWv_apart (seqno view : Int) (verify : Bool) :
    Ensures (inWv cfg seqno view verify) s (fun w t => Apart s t ∧ (w = true → t = s ∧ view = s.v))
      (Apart s) := by
  refine Reaches.get_bind
    (Reaches.ite (fun hw => Reaches.pure ⟨.refl, fun _ => ⟨rfl, hw.2.2⟩⟩) fun _ => ?_)
  refine Ensures.bind (Q := fun _ t => Apart s t) ((Always.when (sendStatus_apart cfg)) s)
    fun _ t ht => Reaches.pure ⟨ht, ?_⟩
  rintro ⟨⟩

end Quiet

theorem apart_ensures {x : Prog Replica α} (hx : Always Apart x) (s : Replica) :
    Ensures x s (fun _ t => Apart s t) (Apart s) := hx s

/-- The program keeps the invariant. -/
abbrev HKeeps (cfg : Cfg) (id : Nat) (H : Heard) (r : Int → Prop) (k : Option Int) (q : Nat)
    (v : Int) (base : Replica) (x : Prog Replica α) : Prop :=
  Holds (HInv cfg id H r k q v base) (HRest cfg id H base) x

theorem apart_hkeeps {x : Prog Replica α} (hx : Always Apart x) : HKeeps cfg id H r k q v base x :=
  .of_within hx (fun _ _ h hs => h.hinv hs) fun _ hs => hs.rest

/-- A change of fields that the invariant is not about. -/
theorem apart_modify {β : Type} {g : Replica → Replica} {f : Unit → Prog Replica β}
    (hg : ∀ s, Apart s (g s)) (hf : HKeeps cfg id H r k q v base (f ())) :
    HKeeps cfg id H r k q v base (Prog.modify g >>= f) :=
  .modify_bind (fun s hs => (hg s).hinv hs) hf

/-! ## What `vi` asks for -/

/-- The handler of the calls processes a new view that is due. -/
structure HServes (cfg : Cfg) (id : Nat) (H : Heard) (h : NVCall → Prog Replica Unit) : Prop where
  status : Always Apart (h .sendStatus)
  newView : ∀ r q v base s min d max ms, HDue cfg id H r q v base s →
    Fair cfg id (Known H s) H.reached s.vi.lastNvs (.call (.processNewView min d max ms)) →
    Ensures (h (.processNewView min d max ms)) s (fun _ t => HInv cfg id H r none q v base t)
      (HRest cfg id H base)

/-- What `vi` may send is plain, or a proof. -/
theorem fair_send {VC : ViewChange → Prop} {nvs : Nat → NVInfo} {dest : Option Nat} {m : Msg}
    (hf : Fair cfg id VC H.reached nvs (.send dest m)) :
    Plain (dest, m) ∨ ∀ s, Retransmitted cfg id H s dest m := by
  cases m with
  | prePrepare pp => exact hf.elim
  | prepare p =>
    obtain ⟨k, hk, he, hr⟩ := hf
    exact .inr fun _ => ⟨k, hk, .inr ⟨he, hr⟩⟩
  | commit c => exact hf.elim
  | newView nv => exact hf.elim
  | _ => exact .inl trivial

theorem isPnv_of_pnvOuts {outs : List Out} (h0 : pnvOuts outs = 0) {o : Out} (ho : o ∈ outs) :
    isPnv o = false := by
  simpa using List.countP_eq_zero.1 h0 o ho

section Perform

variable (hh : HServes cfg id H h)

include hh

/-- A call of `send_status`, or a message. -/
theorem perform_hrest : ∀ (outs : List Out) (s : Replica),
    (∀ o ∈ outs, Fair cfg id (Known H s) H.reached s.vi.lastNvs o) →
    pnvOuts outs = 0 → HRest cfg id H base s →
      Ensures (perform h outs) s (fun _ t => HRest cfg id H base t) (HRest cfg id H base) := by
  intro outs
  induction outs with
  | nil => exact fun s _ _ hs => Reaches.pure hs
  | cons o outs ih =>
    intro s hf h0 hs
    rw [pnvOuts_cons] at h0
    have hrest : ∀ t, Grows s t → t.vi = s.vi → HRest cfg id H base t →
        Ensures (perform h outs) t (fun _ t => HRest cfg id H base t) (HRest cfg id H base) :=
          fun t hg hvi ht =>
      ih t (fun o' ho' => (hf o' (List.mem_cons_of_mem _ ho')).later
        (fun _ => hg.known) (.inr (by rw [hvi]))) (by omega) ht
    cases o with
    | send dest m =>
      refine Reaches.modify_bind trivial (hrest _ (grows_cons _) rfl ?_)
      rcases fair_send (hf _ List.mem_cons_self) with hp | hm
      · exact ((emit_apart hp).result s).hrest hs
      · exact hs.send (hm s)
    | call c =>
      cases c with
      | sendStatus =>
        refine Ensures.bind (Q := fun _ t => Apart s t) ((apart_ensures hh.status s).imp
          (fun _ _ ht => ht) fun t ht => ht.hrest hs) fun _ t ht => ?_
        exact hrest t ht.grows ht.vi (ht.hrest hs)
      | processNewView min d max ms => exact absurd h0 (Nat.succ_ne_zero _)

theorem perform_hinv : ∀ (outs : List Out) (s : Replica),
    (∀ o ∈ outs, Fair cfg id (Known H s) H.reached s.vi.lastNvs o) →
    pnvOuts outs ≤ 1 → (pnvOuts outs = 0 → HInv cfg id H r k q v base s) →
    (pnvOuts outs = 1 → HDue cfg id H r q v base s ∧ (s.Unwrapped → k = none)) →
    Ensures (perform h outs) s (fun _ t => HInv cfg id H r k q v base t) (HRest cfg id H base) := by
  intro outs
  induction outs with
  | nil => exact fun s _ _ h0 _ => Reaches.pure (h0 rfl)
  | cons o outs ih =>
    intro s hf hle h0 h1
    have hrest : HRest cfg id H base s := by
      rcases (by omega : pnvOuts (o :: outs) = 0 ∨ pnvOuts (o :: outs) = 1) with he | he
      · exact (h0 he).rest
      · exact (h1 he).1.rest
    have hnext : ∀ t, Grows s t → t.vi = s.vi →
      (HInv cfg id H r k q v base s → HInv cfg id H r k q v base t) →
        (HDue cfg id H r q v base s → HDue cfg id H r q v base t) →
          pnvOuts (o :: outs) = pnvOuts outs →
        Ensures (perform h outs) t (fun _ t => HInv cfg id H r k q v base t)
          (HRest cfg id H base) := by
      intro t hg hvi hi hd he
      rw [he] at hle h0 h1
      refine ih t (fun o' ho' => ?_) hle (fun hz => hi (h0 hz))
        fun ho => ⟨hd (h1 ho).1, fun hu => (h1 ho).2 (hg.unwrapped hu)⟩
      exact (hf o' (List.mem_cons_of_mem _ ho')).later (fun _ => hg.known) (.inr (by rw [hvi]))
    cases o with
    | send dest m =>
      refine Reaches.modify_bind trivial
        (hnext _ (grows_cons _) rfl (fun hs => ?_) (fun hs => ?_) (pnvOuts_cons _ _))
      · rcases fair_send (hf _ List.mem_cons_self) with hp | hm
        · exact ((emit_apart hp).result s).hinv hs
        · exact hs.send (hm s)
      · rcases fair_send (hf _ List.mem_cons_self) with hp | hm
        · exact ((emit_apart hp).result s).hdue hs
        · exact hs.send (hm s)
    | call c =>
      cases c with
      | sendStatus =>
        refine Ensures.bind (Q := fun _ t => Apart s t) ((apart_ensures hh.status s).imp
          (fun _ _ ht => ht) fun t ht => ht.hrest hrest) fun _ t ht => ?_
        exact hnext t ht.grows ht.vi ht.hinv ht.hdue (pnvOuts_cons _ _)
      | processNewView min d max ms =>
        have he : pnvOuts (.call (.processNewView min d max ms) :: outs) = pnvOuts outs + 1 :=
          pnvOuts_cons _ _
        have hz : pnvOuts outs = 0 := by omega
        obtain ⟨hdue, hk⟩ := h1 (by omega)
        refine Ensures.bind (Q := fun _ t => HInv cfg id H r none q v s t) ?_ fun _ t ht => ?_
        · refine (hh.newView r q v s s min d max ms ⟨hdue.votes,
            hdue.awaiting, hdue.pledged, hdue.v, .refl⟩ (hf _ List.mem_cons_self)).imp
            (fun _ _ ht => ht) fun t ht => ht.since_before hrest.since
        · have hg : Grows s t := ht.since
          refine ih t (fun o' ho' => ?_) (by omega) (fun _ => (ht.resume
            fun hu => hk (hg.unwrapped hu)).since_before hrest.since) fun ho => by omega
          exact (hf o' (List.mem_cons_of_mem _ ho')).later
            (fun _ => hg.known) (.inl (isPnv_of_pnvOuts hz ho'))

/-- **An operation of `vi`**, and what it asks for. -/
theorem onVi_hinv (hid : id < cfg.n) {op : Prog ViewInfo α} {A : Prop} {b : Option α → Nat}
    (hs : HInv cfg id H r k q v base s) (hop : ViewInfo.Keeps True A cfg id op s.vi)
    (hsrc : Within (fun a w => ViewInfo.Sourced cfg id (Known H s) H.newView H.reached s.v w ∧
      NVInfo.Frozen (a.lastNvs id) (w.lastNvs id))
      (fun a w => ViewInfo.Sourced cfg id (Known H s) H.newView H.reached s.v w ∧
        NVInfo.Frozen (a.lastNvs id) (w.lastNvs id)) op s.vi)
    (hq : ViewInfo.Kept cfg id True A s.vi (op s.vi).2 → ∀ x,
      s.v < x → (op s.vi).2.held cfg x ≤ b (op s.vi).1) :
    Ensures (onVi h op) s (fun a t => HInv cfg id H r k (b (some a)) v base t ∧
        (op s.vi).1 = some a) (HRest cfg id H base) := by
  obtain ⟨hk1, hk2⟩ := hop.result
  have hw : ViewInfo.Sourced cfg id (Known H s) H.newView H.reached s.v (op s.vi).2 ∧
      NVInfo.Frozen (s.vi.lastNvs id) ((op s.vi).2.lastNvs id) := Ensures.after hsrc
  set w := (op s.vi).2 with hwdef
  refine Ensures.of_apply (y := do perform h w.outs; ofOption (op s.vi).1) (t := served s w) rfl ?_
  have hfair : ∀ o ∈ w.outs,
    Fair cfg id (Known H (served s w)) H.reached (served s w).vi.lastNvs o := hw.1.outs
  have hkept : ViewInfo.Kept cfg id True A s.vi w →
      Ensures (perform h w.outs) (served s w) (fun _ t =>
        HInv cfg id H r k (b (op s.vi).1) v base t) (HRest cfg id H base) := fun hk =>
    perform_hinv hh w.outs _ hfair hk.ok.once (fun h0 => hs.served hk hw.1 hw.2 (hq hk) h0)
      fun h1 => hs.served_due hid hk hw.1 (hq hk) h1
  have hrest : HRest cfg id H base (served s w) := hs.rest.of_eq rfl rfl rfl rfl rfl rfl
  cases ho : (op s.vi).1 with
  | some a =>
    rw [ho] at hkept
    exact Ensures.bind (hkept (hk1 a ho)) fun _ t ht => Reaches.pure ⟨ht, rfl⟩
  | none =>
    refine Ensures.bind (Q := fun _ t => HRest cfg id H base t) ?_ fun _ t ht => Reaches.stop ht
    rcases hk2 ho with hk | hz
    · exact (hkept hk).imp (fun _ t ht => ht.rest) fun _ h => h
    · exact perform_hrest hh w.outs _ hfair hz hrest

/-- One that stays in the view, and keeps complete new views. -/
theorem onVi_hkeeps (hid : id < cfg.n) {op : Prog ViewInfo α} (hop : Stays cfg id op)
    (hsrc : ∀ {VC : ViewChange → Prop} {w : Int} {vi : ViewInfo},
      ViewInfo.Sourced cfg id VC H.newView H.reached w vi →
      ViewInfo.Source cfg id VC H.newView H.reached w op vi) :
        HKeeps cfg id H r k q v base (onVi h op) := by
  intro s hs
  refine (onVi_hinv hh hid (A := True) (b := fun _ => q)
    hs (hop hs.votes.vi (by rw [hs.votes.outs]; rfl)) ?_ fun hk x hx => ?_).imp
    (fun _ t ht => ht.1) fun _ h => h
  · exact (hsrc hs.honest.vi).own
  · exact (hk.held trivial x (by rw [hs.votes.viV]; exact hx)).trans (hs.votes.held x hx)

end Perform

theorem fetchP_bind {β : Type} {f : PreparedCert → Prog Replica β} {Q : β → Replica → Prop}
    {N : Replica → Prop} (hN : N s) (hf : ∀ pc, pc = s.cert cfg n →
      s.plog.withinRange cfg.P.maxOut n = true → Ensures (f pc) s Q N) :
    Ensures (fetchP cfg n >>= f) s Q N := by
  refine Ensures.bind (Q := fun pc t => t = s ∧ pc = s.cert cfg n ∧
    s.plog.withinRange cfg.P.maxOut n = true) ?_ ?_
  · refine Reaches.get_bind (Reaches.ofOption hN fun pc hpc => ?_)
    obtain ⟨h1, h2⟩ := Log.fetch_eq_some.1 hpc
    exact ⟨rfl, h2.symm, h1⟩
  · rintro pc _ ⟨rfl, hpc, hw⟩
    exact hf pc hpc hw

theorem fetchC_bind {β : Type} {f : Certificate Commit → Prog Replica β} {Q : β → Replica → Prop}
    {N : Replica → Prop} (hN : N s) (hf : ∀ cc, cc = s.commitCert cfg n →
      s.clog.withinRange cfg.P.maxOut n = true → Ensures (f cc) s Q N) :
    Ensures (fetchC cfg n >>= f) s Q N := by
  refine Ensures.bind (Q := fun cc t => t = s ∧ cc = s.commitCert cfg n ∧
    s.clog.withinRange cfg.P.maxOut n = true) ?_ ?_
  · refine Reaches.get_bind (Reaches.ofOption hN fun cc hcc => ?_)
    obtain ⟨h1, h2⟩ := Log.fetch_eq_some.1 hcc
    exact ⟨rfl, h2.symm, h1⟩
  · rintro cc _ ⟨rfl, hcc, hw⟩
    exact hf cc hcc hw

/-! ## Pre-prepares and keys -/

theorem stalePC_hkeeps (n : Int) : HKeeps cfg id H r k q v base (stalePC cfg id n) := by
  intro s hs
  refine fetchP_bind hs.rest fun pc hpc hw =>
    Reaches.get_bind (Reaches.ofOption_bind hs.rest fun pc' hpc' => Reaches.modify_bind trivial ?_)
  subst hpc
  have hset := hs.setCalm hw (PreparedCert.markStale_calm hpc')
    (PreparedCert.markStale_vals hpc') (PreparedCert.markStale_lasting hpc') fun hl =>
    hl.markStale hpc'
  refine fetchC_bind hset.rest fun cc hcc hw => Reaches.ofOption_bind hset.rest
    fun cc' hcc' => Reaches.modify trivial ?_
  subst hcc
  exact hset.setC hw fun _ hcounts => hcounts.markStale hcc'

/-- The next pre-prepare comes after those that the new-view message is about. -/
theorem createPrePrepare_hinv (hs : HInv cfg id H r k q v base s)
    (hnew : s.v = 0 ∨ s.vi.hasNewView cfg s.v = true) (batch : List UInt8) :
    Ensures (createPrePrepare cfg id batch) s (fun _ t => HInv cfg id H r k q v base t)
      (HRest cfg id H base) := by
  have hraise : HInv cfg id H r k q v base { s with seqno := s.seqno + 1 } :=
    hs.of_eq rfl rfl rfl rfl rfl rfl (Int.le_add_one le_rfl) rfl
  refine Reaches.modify_bind trivial (Reaches.get_bind (Reaches.modify_bind trivial ?_))
  have hcreate :=
    hraise.create ⟨s.v, s.seqno + 1, cfg.batchDigest batch, batch⟩ s.lastStable rfl hnew
    fun nv hnv hv _ hhi => by
    have := hs.honest.above nv hnv hv
    have hhi : s.seqno + 1 < nv.max := hhi
    omega
  have hmade : Issued { s with seqno := s.seqno + 1, created := (⟨s.v,
    s.seqno + 1, cfg.batchDigest batch, batch⟩, s.lastStable) :: s.created }
      ⟨s.v, s.seqno + 1, cfg.batchDigest batch, batch⟩ := ⟨_, List.mem_cons_self, rfl⟩
  have hout : Retransmitted cfg id H _ none
    (.prePrepare ⟨s.v, s.seqno + 1, cfg.batchDigest batch, batch⟩) := fun _ => .inl hmade
  have hsend := hcreate.send hout
  refine Reaches.modify_bind trivial (fetchP_bind hsend.rest fun pc hpc hw => ?_)
  subst hpc
  refine Reaches.ofOption_bind hsend.rest fun pc' hpc' => Reaches.modify trivial ?_
  exact hsend.setCalm hw (PreparedCert.addMinePrePrepare_calm hpc')
    (by rw [PreparedCert.addMinePrePrepare_pc hpc']; exact fun h => h)
    (PreparedCert.addMinePrePrepare_lasting hpc')
      fun hl => hl.addMinePrePrepare hpc' ⟨le_rfl, fun _ _ => hmade⟩

theorem sendPrePrepare_hkeeps : HKeeps cfg id H r k q v base (sendPrePrepare cfg id) := by
  intro s hs
  refine Reaches.get_bind (Reaches.assert_bind hs.rest
    fun _ => Reaches.when (fun hg => ?_) fun _ => hs)
  simp only [Bool.and_eq_true, decide_eq_true_eq] at hg
  have hnew := hasNewView_cases hg.2
  refine Ensures.bind (Q := fun _ t => Apart s t) ((apart_ensures (takeBatch_apart cfg) s).imp
    (fun _ _ ht => ht) fun t ht => ht.hrest hs.rest) fun batch t ht => ?_
  exact createPrePrepare_hinv (ht.hinv hs) (by rw [ht.v, ht.vi]; exact hnew) batch

theorem sendNull_hkeeps : HKeeps cfg id H r k q v base (sendNull cfg id) := by
  intro s hs
  refine Reaches.get_bind (Reaches.assert_bind hs.rest
    fun _ => Reaches.when (fun hg => ?_) fun _ => hs)
  simp only [Bool.and_eq_true, decide_eq_true_eq] at hg
  exact createPrePrepare_hinv hs (hasNewView_cases hg.1.1.1.2) []

section Calls

variable (hid : id < cfg.n) (hh : HServes cfg id H h)

include hid hh

theorem sendNewKey_hkeeps : HKeeps cfg id H r k q v base (sendNewKey cfg id h) := by
  refine .bind (apart_hkeeps (emit_apart trivial)) fun _ => .get_bind fun s => ?_
  refine .bind (apart_hkeeps (.each (fun n => staleE_apart cfg n) _))
    fun _ => .bind (.each (fun n => stalePC_hkeeps n) _) fun _ => ?_
  exact onVi_hkeeps hh hid (fun hw houts => ViewInfo.markStale_keeps hid hw houts)
    ViewInfo.markStale_source

theorem updateMaxRec_hkeeps : HKeeps cfg id H r k q v base (updateMaxRec cfg id h) :=
  .get_bind fun _ => .when fun _ =>
    apart_modify (fun _ => .of_eq rfl rfl rfl rfl rfl rfl rfl le_rfl rfl) (sendNewKey_hkeeps hid hh)

/-! ## Stable checkpoints -/

theorem advance_hkeeps (n : Int) (haveState : Bool) :
    HKeeps cfg id H r none q v base (advance cfg id h n haveState) := by
  refine .modify_bind (fun s hs => hs.of_eq rfl rfl rfl rfl rfl rfl le_rfl rfl) (.get_bind
    fun s => .bind (.when fun _ => ?_) fun _ => ?_)
  · refine apart_modify (fun _ => .of_eq rfl rfl rfl rfl rfl rfl rfl le_rfl rfl)
      (.bind (updateMaxRec_hkeeps hid hh) fun _ => ?_)
    exact apart_hkeeps (.modify fun _ => .of_eq rfl rfl rfl rfl rfl rfl rfl le_rfl rfl)
  refine .modify_bind (fun s hs => ?_) (.get_bind fun s => ?_)
  · refine (hs.truncate (s.lastStable + 1)).of_eq rfl rfl rfl rfl rfl rfl ?_ rfl
    change s.seqno ≤ if s.seqno < s.lastStable then s.lastStable else s.seqno
    split <;> omega
  refine .bind (onVi_hkeeps hh hid (fun hw _ => ViewInfo.markStable_keeps hid hw _)
    fun hs => ViewInfo.markStable_source hs _) fun _ => .get_bind fun s => ?_
  refine .ofOption_bind (fun _ hs => hs.rest) fun e =>
    apart_modify (fun _ => .of_eq rfl rfl rfl rfl rfl rfl rfl le_rfl rfl) ?_
  exact .get_bind fun s => apart_hkeeps (onState_apart _)

theorem markStable_hkeeps : ∀ (fuel : Nat) (n : Int) (haveState : Bool),
    HKeeps cfg id H r none q v base (markStable cfg id h fuel n haveState)
  | 0, _, _ => .pure
  | fuel + 1, n, haveState => by
    refine .get_bind fun s => .when fun _ => .bind (advance_hkeeps hid hh n haveState)
      fun _ => .get_bind fun s => ?_
    refine .bind (.when fun _ => apart_hkeeps (ownStable_apart cfg _))
      fun _ => .get_bind fun s => ?_
    refine .bind (apart_hkeeps (moveCkpts_apart cfg _ _)) fun newLs => .get_bind fun s => ?_
    refine .bind (.when fun _ => .bind (apart_hkeeps (haveCkpt_apart cfg newLs)) fun have' => ?_)
      fun _ => .get_bind fun s => ?_
    · exact markStable_hkeeps fuel newLs have'
    · exact .when fun _ => sendPrePrepare_hkeeps

theorem sendCheckpoint_hkeeps : HKeeps cfg id H r none q v base (sendCheckpoint cfg id h) := by
  refine .get_bind fun s => .bind (apart_hkeeps (fetchE_apart cfg _))
    fun cc => .ofOption_bind (fun _ hs => hs.rest) fun r => ?_
  refine .bind (apart_hkeeps (setE_apart cfg _ _))
    fun _ => .bind (.when fun _ => ?_) fun _ => apart_hkeeps (emit_apart trivial)
  exact markStable_hkeeps hid hh _ _ _

theorem handleCheckpoint_hkeeps (m : Checkpoint) (verify old : Bool) :
    HKeeps cfg id H r none q v base (handleCheckpoint cfg id h m verify old) := by
  refine .get_bind fun s => .when fun _ => .ite (fun _ => ?_)
    fun _ => .when fun _ => apart_hkeeps (checkpointAbove_apart cfg m)
  refine .bind (apart_hkeeps (fetchE_apart cfg _))
    fun cs => .ofOption_bind (fun _ hs => hs.rest) fun r => ?_
  exact .bind (apart_hkeeps (setE_apart cfg _ _))
    fun _ => .when fun _ => markStable_hkeeps hid hh _ _ _

omit hid hh in
theorem handleRequest_hkeeps (x : List UInt8) :
    HKeeps cfg id H r k q v base (handleRequest cfg id x) :=
  apart_modify (fun _ => .of_eq rfl rfl rfl rfl rfl rfl rfl le_rfl rfl) (.get_bind
    fun _ => .when fun _ => sendPrePrepare_hkeeps)

/-! ## Execution -/

theorem execute_hkeeps (pp : PrePrepareMsg) :
    HKeeps cfg id H r k q v base (execute cfg id h pp) := by
  refine .get_bind fun s => .assert_bind (fun _ hs => hs.rest)
    fun _ => .ofOption_bind (fun _ hs => hs.rest) fun st => ?_
  refine apart_modify (fun _ => .of_eq rfl rfl rfl rfl rfl rfl rfl le_rfl rfl)
    (.bind (.each (fun other => ?_) _) fun _ => ?_)
  · refine .bind (.when fun _ => sendNewKey_hkeeps hid hh) fun _ => ?_
    exact apart_hkeeps (.modify fun _ => .of_eq rfl rfl rfl rfl rfl rfl rfl le_rfl rfl)
  · exact .when fun _ => apart_hkeeps (onState_apart _)

theorem executePrepared_hkeeps : HKeeps cfg id H r k q v base (executePrepared cfg id h) := by
  refine .get_bind fun s => .when fun _ => .bind (apart_hkeeps (prepared_apart cfg _)) fun pp => ?_
  cases pp with
  | none => exact .pure
  | some pp => exact .when fun _ => execute_hkeeps hid hh pp

omit hid hh in
/-- What was prepared is backed, and is for the sequence number. -/
theorem prepared_backed (hs : HInv cfg id H r k q v base s) :
    Ensures (prepared cfg n) s (fun o t => t = s ∧ ∀ pp,
        o = some pp → Backed cfg id H s.votes pp.view pp.seqno pp.digest ∧
      (s.Unwrapped → s.plog.withinRange cfg.P.maxOut n = true ∧ pp.view = s.v ∧ pp.seqno = n))
        (HRest cfg id H base) := by
  refine fetchP_bind hs.rest fun pc hpc hw => Reaches.ofOption_bind hs.rest
    fun complete hcomp => Reaches.pure ⟨rfl, fun pp hpp => ?_⟩
  subst hpc
  cases complete with
  | false => cases hpp
  | true =>
    obtain ⟨m, hm, hb⟩ := (hs.honest.certs (Log.slot cfg.P.maxOut n)).backed hcomp
    have hpp : (s.cert cfg n).pp = some pp := hpp
    rw [show (s.cert cfg n).pp = some m from hm] at hpp
    cases hpp
    exact ⟨hb, fun hu => ⟨hw, ((hs.pledged hu).locked.placed n hw).prePrepare hcomp hm⟩⟩

omit hid hh in
/-- What was committed has the commits for it, too. -/
theorem committed_certified (hs : HInv cfg id H r k q v base s) :
    Ensures (committed? cfg n) s (fun o t => t = s ∧ ∀ pp,
        o = some pp → Backed cfg id H s.votes pp.view pp.seqno pp.digest ∧
      (s.Unwrapped → Certified cfg id H.commit s.sent pp.view pp.seqno)) (HRest cfg id H base) := by
  refine Ensures.bind (prepared_backed hs) fun o t ht => ?_
  obtain ⟨rfl, ho⟩ := ht
  refine fetchC_bind hs.rest fun cc hcc _ => Reaches.pure ⟨rfl, fun pp hpp => ?_⟩
  subst hcc
  split at hpp
  swap
  · cases hpp
  obtain ⟨hb, hplace⟩ := ho pp hpp
  refine ⟨hb, fun hu => ?_⟩
  obtain ⟨hw, hv, hn⟩ := hplace hu
  rw [hv, hn]
  exact (hs.pledged hu).locked.certified hw ‹_›

/-- **`execute_committed`** executes what was prepared. -/
theorem commitNext_hinv (hs : HInv cfg id H r none q v base s) {pp : PrePrepareMsg}
    (hb : Backed cfg id H s.votes pp.view pp.seqno pp.digest)
    (hc : s.Unwrapped → Certified cfg id H.commit s.sent pp.view pp.seqno) :
    Ensures (commitNext cfg id h pp) s (fun _ t => HInv cfg id H r none q v base t)
      (HRest cfg id H base) := by
  refine Ensures.imp (Q := fun _ t => HInv cfg id H r none q v s t)
    (E := HRest cfg id H s) ?_ (fun _ t ht => ht.since_before hs.since)
    fun t ht => ht.since_before hs.since
  refine Ensures.bind (executePrepared_hkeeps hid hh s hs.since_start)
    fun _ t ht => Reaches.modify_bind trivial ?_
  have hg : Grows s t := ht.since
  have ht' : HInv cfg id H r none q v s { t with lastExecuted := t.lastExecuted + 1,
                                                 committed := pp :: t.committed } :=
    (ht.commit (hb.mono hg.votes) fun hu => (hc (hg.unwrapped hu)).mono hg.sent).of_eq
      rfl rfl rfl rfl rfl rfl le_rfl rfl
  refine Reaches.get_bind (Reaches.assert_bind ht'.rest fun _ => ?_)
  refine Reaches.modify_bind trivial
    (Reaches.when (fun _ => sendCheckpoint_hkeeps hid hh _ ?_) fun _ => ?_)
  · exact ht'.of_eq rfl rfl rfl rfl rfl rfl le_rfl rfl
  · exact ht'.of_eq rfl rfl rfl rfl rfl rfl le_rfl rfl

theorem commitLoop_hkeeps : ∀ fuel, HKeeps cfg id H r none q v base (commitLoop cfg id h fuel)
  | 0 => .pure
  | fuel + 1 => by
    intro s hs
    refine Reaches.get_bind (Reaches.ite (fun _ => Reaches.pure hs) fun _ => ?_)
    refine Ensures.bind (committed_certified hs) ?_
    rintro o _ ⟨rfl, ho⟩
    cases o with
    | none => exact Reaches.pure hs
    | some pp =>
      refine Reaches.ite (fun _ => ?_) fun _ => Reaches.pure hs
      exact Ensures.bind (commitNext_hinv hid hh hs (ho pp rfl).1 (ho pp rfl).2)
        fun _ t ht => commitLoop_hkeeps fuel t ht

theorem executeCommitted_hkeeps : HKeeps cfg id H r none q v base (executeCommitted cfg id h) := by
  refine .get_bind fun s => .when fun _ => .bind (commitLoop_hkeeps hid hh _)
    fun returned => .get_bind fun s => ?_
  exact .when fun _ => sendPrePrepare_hkeeps

/-! ## Commits -/

/-- **`send_commit`** sends the commit that is due, and counts it. -/
theorem sendCommit_hinv (hs : HInv cfg id H r (some n) q v base s) :
    Ensures (sendCommit cfg id h n) s (fun _ t => HInv cfg id H r none q v base t)
      (HRest cfg id H base) := by
  refine Reaches.get_bind (Ensures.bind ((Holds.when fun _ => executePrepared_hkeeps hid hh) s hs)
    fun _ t ht => ?_)
  have hready : t.Unwrapped → Ready cfg t n := fun hu => ht.ready hu n rfl
  have hsent := ht.idle.pledge hready
  refine Reaches.get_bind (Reaches.modify_bind trivial (Reaches.modify_bind trivial ?_))
  have hnote : HInv cfg id H r none q v base
      { t with sent := (none, .commit ⟨t.v, n, id⟩) :: t.sent,
               lastPrepared := if t.lastPrepared < n then n else t.lastPrepared } :=
    hsent.of_eq rfl rfl rfl rfl rfl rfl le_rfl rfl
  refine fetchC_bind hnote.rest fun cs hcs hw => Reaches.ofOption_bind hnote.rest
    fun res hres => Reaches.modify_bind trivial ?_
  subst hcs
  have hset := hnote.setC hw (c := res.1) fun hu hcounts =>
    hcounts.addMine hres ((ht.pledged hu).locked.unsent_mine (hready hu))
    ⟨⟨hid, fun _ => List.mem_cons_self, fun hne => absurd rfl hne⟩, rfl, rfl⟩
  exact (Holds.when fun _ => executeCommitted_hkeeps hid hh) _ hset

/-- The commit for a certificate that is complete, where none was sent. -/
theorem commitIfComplete_hinv (hs : HInv cfg id H r none q v base s)
    (hun : s.Unwrapped → s.Unsent n) :
    Ensures (commitIfComplete cfg id h n) s (fun _ t => HInv cfg id H r none q v base t)
      (HRest cfg id H base) := by
  refine fetchP_bind hs.rest fun pc hpc hw => Reaches.ofOption_bind hs.rest
    fun complete hcomp => Reaches.when (fun hc => ?_) fun _ => hs
  subst hpc hc
  refine sendCommit_hinv hid hh ⟨hs.votes, hs.honest, hs.pledged, fun hu m hm => ?_, hs.v, hs.since⟩
  cases hm
  exact ⟨hw, hcomp, hun hu⟩

theorem handleCommit_hinv {m : Commit} {verify : Bool} (hs : HInv cfg id H r none q v base s)
    (hm : verify = true → m.id ≠ id → m.view = s.v → H.commit m) :
    Ensures (handleCommit cfg id h m verify) s (fun _ t => HInv cfg id H r none q v base t)
      (HRest cfg id H base) := by
  refine Ensures.bind ((inWv_apart cfg _ _ _).imp (fun _ _ h => h) fun t ht => ht.hrest hs.rest) ?_
  rintro w t ⟨ht, hw⟩
  refine Reaches.get_bind (Reaches.when (fun hc => ?_) fun _ => ht.hinv hs)
  simp only [Bool.and_eq_true, decide_eq_true_eq] at hc
  obtain ⟨rfl, hv⟩ := hw hc.1
  refine fetchC_bind hs.rest fun cs hcs hrange => Reaches.ofOption_bind hs.rest
    fun res hres => Reaches.modify_bind trivial ?_
  subst hcs
  have hset := hs.setC hrange (c := res.1) fun hu hcounts => hcounts.add hres fun hver hlt hne =>
    ⟨⟨hlt, fun he => absurd he hne, fun _ => hm hver hne hv⟩, hv, rfl⟩
  exact (Holds.when fun _ => executeCommitted_hkeeps hid hh) _ hset

end Calls

end Replica

end TinyBFT
