import TinyBFT.ViewCalls
import TinyBFT.Replica

/-!
# What all handlers keep

Most of what a handler does concerns few fields of a replica. `Aside` says that the view, `vi`,
`plog`, `seqno`, the stable checkpoint, what was created and the prepares sent to all are the same,
and `Kept` what else an invariant has to bear for the handlers to keep it.

| here | there |
| --- | --- |
| `votes`      | the prepares that were sent to `All_replicas`; those that are sent again, or as proofs, go to one replica |
-/

namespace TinyBFT

namespace ViewInfo

variable {cfg : Cfg} {id : Nat}

theorem held_new (w : Int) : (ViewInfo.new cfg).held cfg w = 0 :=
  List.countP_eq_zero.2 fun i _ => by
    simp [heldBy, ViewInfo.new, NVInfo.vcOf, NVInfo.new, NVInfo.noVC]

theorem ok_new : Ok cfg id (ViewInfo.new cfg) where
  inv := {
    views := ⟨rfl, fun _ => le_rfl, fun _ _ => by simp [ViewInfo.new], fun _ _ h => by cases h⟩
    few := fun w _ => by rw [held_new]; omega
    zero := fun _ _ => rfl
    calls := fun _ => rfl
    prim := fun _ h => absurd rfl h
    own := le_rfl
    wf := fun _ => NVInfo.wf_new [] rfl 0 none 0
    stored := fun _ h => absurd h (lt_irrefl _) }
  once := Nat.zero_le 1
  complete := fun h => by cases h

end ViewInfo

namespace Replica

open Prog (Ensures Reaches Within Composes Holds get modify assert ofOption when each)
open ViewInfo (pnvOuts)

def vote : Option Nat × Msg → Option Prepare
  | (none, .prepare p) => some p
  | _ => none

/-- The prepares sent to all replicas, latest first. -/
def votes (s : Replica) : List Prepare := s.sent.filterMap vote

/-- Nothing is changed but what the certificates of the commits and checkpoints, the counters of the
execution and the state say. -/
structure Aside (s t : Replica) : Prop where
  v : t.v = s.v
  vi : t.vi = s.vi
  lastStable : t.lastStable = s.lastStable
  seqno : t.seqno = s.seqno
  plog : t.plog = s.plog
  created : t.created = s.created
  newViews : t.newViews = s.newViews
  votes : t.votes = s.votes

variable {cfg : Cfg} {id : Nat} {s t u : Replica} {α : Type} {h : NVCall → Prog Replica Unit}
    {I N : Replica → Prop}

theorem Aside.refl : Aside s s := ⟨rfl, rfl, rfl, rfl, rfl, rfl, rfl, rfl⟩

theorem Aside.trans (h : Aside s t) (h' : Aside t u) : Aside s u :=
  ⟨h'.v.trans h.v, h'.vi.trans h.vi, h'.lastStable.trans h.lastStable,
    h'.seqno.trans h.seqno, h'.plog.trans h.plog,
    h'.created.trans h.created, h'.newViews.trans h.newViews, h'.votes.trans h.votes⟩

theorem hasNewView_cases (h : s.hasNewView cfg = true) :
    s.v = 0 ∨ s.vi.hasNewView cfg s.v = true := by
  simp only [Replica.hasNewView, Bool.or_eq_true, beq_iff_eq, Bool.and_eq_true] at h
  exact h.imp (fun h => h) And.right

theorem aside_composes : Composes Aside Aside := ⟨Aside.trans, Aside.trans⟩

/-- The program does nothing but what `Aside` allows. -/
abbrev Quiet (x : Prog Replica α) : Prop := ∀ s : Replica, Within Aside Aside x s

/-! ## Quiet programs -/

namespace Quiet

variable {β ι : Type} {x : Prog Replica α} {f : α → Prog Replica β}

theorem pure {a : α} : Quiet (Pure.pure a : Prog Replica α) := fun _ => .pure .refl

theorem bind (hx : Quiet x) (hf : ∀ a, Quiet (f a)) : Quiet (x >>= f) := fun s =>
  .bind aside_composes (hx s) fun a t _ => hf a t

theorem get_bind {f : Replica → Prog Replica β} (hf : ∀ s, Quiet (f s)) : Quiet (get >>= f) :=
  fun s => .get_bind (hf s s)

theorem modify {g : Replica → Replica} (hg : ∀ s, Aside s (g s)) : Quiet (modify g) :=
  fun s => .modify (hg s)

theorem modify_bind {g : Replica → Replica} {f : Unit → Prog Replica β} (hg : ∀ s, Aside s (g s))
    (hf : Quiet (f ())) :
    Quiet (Prog.modify g >>= f) := bind (modify hg) fun _ => hf

theorem assert_bind {b : Bool} {f : Unit → Prog Replica β} (hf : Quiet (f ())) :
    Quiet (assert b >>= f) := fun s =>
  .assert_bind .refl fun _ => hf s

theorem assert {b : Bool} : Quiet (Prog.assert b) :=
  fun _ => Ensures.of_result (fun _ _ => .refl) fun _ => .refl

theorem ofOption_bind {o : Option α} (hf : ∀ a, Quiet (f a)) : Quiet (ofOption o >>= f) := fun s =>
  .ofOption_bind .refl fun a _ => hf a s

theorem ofOption {o : Option α} : Quiet (ofOption o) :=
  fun _ => Ensures.of_result (fun _ _ => .refl) fun _ => .refl

theorem stop : Quiet (Prog.stop : Prog Replica α) := fun _ => .of_ensures (Reaches.stop .refl)

theorem when {b : Bool} {x : Prog Replica Unit} (hx : Quiet x) : Quiet (when b x) :=
  fun s => .when .refl fun _ => hx s

theorem ite {c : Prop} [Decidable c] {y z : Prog Replica α} (hy : Quiet y) (hz : Quiet z) :
    Quiet (if c then y else z) := fun s =>
  .ite (fun _ => hy s) fun _ => hz s

theorem each {x : ι → Prog Replica Unit} (hx : ∀ i, Quiet (x i)) (is : List ι) :
    Quiet (each x is) := fun _ =>
  .each aside_composes .refl (fun i t _ => hx i t) is

theorem ensures (hx : Quiet x) (s : Replica) : Ensures x s (fun _ t => Aside s t) (Aside s) := hx s

end Quiet

/-- A loop over sequence numbers of one window, which have slots of their own. -/
theorem each_window {I : (Int → Prop) → Replica → Prop} {x : Int → Prog Replica Unit} {size : Nat}
    (hx : ∀ {s : Replica} {i : Int} {is : List Int}, I (· ∈ i :: is) s →
      (∀ n ∈ is, Log.slot size n ≠ Log.slot size i) →
      Ensures (x i) s (fun _ t => I (· ∈ is) t) N) {lo max :
        Int} (hs : I (· ∈ intRange lo max) s) (hw : max - lo ≤ size) :
    Ensures (each x (intRange lo max)) s (fun _ t => I (· ∈ intRange max max) t) N := by
  obtain ⟨k, hk⟩ : ∃ k, k = (max - lo).toNat := ⟨_, rfl⟩
  induction k generalizing s lo with
  | zero =>
    rw [intRange_nil (by omega : max ≤ lo)] at hs ⊢
    rw [intRange_nil le_rfl]
    exact Reaches.pure hs
  | succ k ih =>
    rw [intRange_cons (by omega : lo < max)] at hs ⊢
    refine Ensures.bind (hx hs fun n hn heq => ?_) fun _ t ht => ih ht (by omega) (by omega)
    have hn := mem_intRange.1 hn
    have hn' : lo ≤ n ∧ n < lo + size := by omega
    have := Log.slot_inj hn' ⟨le_rfl, by omega⟩ heq
    omega

variable (cfg)

/-- A message that is not a vote. -/
theorem emit_quiet {dest : Option Nat} {m : Msg} (hm : vote (dest, m) = none) :
    Quiet (emit dest m) :=
  .modify fun _ => ⟨rfl, rfl, rfl, rfl, rfl, rfl, rfl, List.filterMap_cons_none hm⟩

theorem emitOpt_quiet (dest : Nat) (m : Option Msg) : Quiet (emitOpt (some dest) m) := by
  cases m with
  | none => exact .pure
  | some m => exact emit_quiet rfl

theorem fetchP_quiet (n : Int) : Quiet (fetchP cfg n) := .get_bind fun _ => .ofOption

theorem fetchC_quiet (n : Int) : Quiet (fetchC cfg n) := .get_bind fun _ => .ofOption

theorem setC_quiet (n : Int) (c : Certificate Commit) : Quiet (setC cfg n c) :=
  .modify fun _ => ⟨rfl, rfl, rfl, rfl, rfl, rfl, rfl, rfl⟩

theorem fetchE_quiet (n : Int) : Quiet (fetchE cfg n) := .get_bind fun _ => .ofOption

theorem setE_quiet (n : Int) (c : Certificate Checkpoint) : Quiet (setE cfg n c) :=
  .modify fun _ => ⟨rfl, rfl, rfl, rfl, rfl, rfl, rfl, rfl⟩

theorem onState_quiet (op : State → Option State) : Quiet (onState op) :=
  .get_bind fun _ => .ofOption_bind fun _ => .modify
    fun _ => ⟨rfl, rfl, rfl, rfl, rfl, rfl, rfl, rfl⟩

theorem sendStatus_quiet : Quiet (sendStatus cfg) := by
  refine .get_bind fun s =>
    .when (.modify_bind (fun _ => ⟨rfl, rfl, rfl, rfl, rfl, rfl, rfl, rfl⟩) (.when ?_))
  refine .bind (.when (.each (fun n => ?_) _)) fun _ => emit_quiet rfl
  exact .bind (fetchP_quiet cfg n) fun pc => .ofOption_bind
    fun _ => .when (.bind (fetchC_quiet cfg n) fun _ => .pure)

theorem staleE_quiet (n : Int) : Quiet (staleE cfg n) :=
  .when (.bind (fetchE_quiet cfg n) fun _ => .ofOption_bind fun _ => setE_quiet cfg n _)

theorem ownStable_quiet (n : Int) : Quiet (ownStable cfg id n) := by
  refine .bind (fetchE_quiet cfg n) fun e => ?_
  cases e.mine with
  | some _ => exact setE_quiet cfg n _
  | none => exact .get_bind fun s => .ofOption_bind fun r => setE_quiet cfg n _

theorem moveCkpt_quiet (newLs : Int) (i : Nat) : Quiet (moveCkpt cfg id newLs i) := by
  refine .get_bind fun s => ?_
  cases s.sset i with
  | none => exact .pure
  | some c =>
    refine .ite (.modify_bind (fun _ => ⟨rfl, rfl, rfl, rfl, rfl, rfl, rfl, rfl⟩) .pure)
      (.ite ?_ .pure)
    refine .bind (fetchE_quiet cfg c.seqno) fun cs =>
      .modify_bind (fun _ => ⟨rfl, rfl, rfl, rfl, rfl, rfl, rfl, rfl⟩) ?_
    exact .ofOption_bind fun r => .bind (setE_quiet cfg _ _) fun _ => .pure

theorem moveCkpts_quiet : ∀ (is : List Nat) (newLs : Int), Quiet (moveCkpts cfg id is newLs)
  | [], _ => .pure
  | i :: is, newLs => .bind (moveCkpt_quiet cfg newLs i) fun newLs => moveCkpts_quiet is newLs

theorem haveCkpt_quiet (n : Int) : Quiet (haveCkpt cfg n) :=
  .get_bind fun _ => .ite (.bind (fetchE_quiet cfg n) fun _ => .pure) .pure

theorem prepared_quiet (n : Int) : Quiet (prepared cfg n) :=
  .bind (fetchP_quiet cfg n) fun _ => .ofOption_bind fun _ => .pure

theorem committed_quiet (n : Int) : Quiet (committed? cfg n) :=
  .bind (prepared_quiet cfg n) fun _ => .bind (fetchC_quiet cfg n) fun _ => .pure

theorem inWv_quiet (seqno view : Int) (verify : Bool) : Quiet (inWv cfg seqno view verify) :=
  .get_bind fun _ => .ite .pure (.bind (.when (sendStatus_quiet cfg)) fun _ => .pure)

/-- A message of the current view and in the window changes nothing. -/
theorem inWv_ensures (seqno view : Int) (verify : Bool) :
    Ensures (inWv cfg seqno view verify) s (fun w t => Aside s t ∧ (w = true → t = s ∧ view = s.v))
      (Aside s) := by
  refine Reaches.get_bind
    (Reaches.ite (fun hw => Reaches.pure ⟨.refl, fun _ => ⟨rfl, hw.2.2⟩⟩) fun _ => ?_)
  refine Ensures.bind (Q := fun _ t => Aside s t) (Quiet.when (sendStatus_quiet cfg) s)
    fun _ t ht => Reaches.pure ⟨ht, ?_⟩
  rintro ⟨⟩

theorem rollback_quiet : Quiet (rollback cfg) :=
  .get_bind fun _ => .when (.assert_bind (.ofOption_bind
    fun _ => .modify fun _ => ⟨rfl, rfl, rfl, rfl, rfl, rfl, rfl, rfl⟩))

theorem checkpointAbove_quiet (m : Checkpoint) : Quiet (checkpointAbove cfg m) := by
  refine .get_bind fun s => .ite (sendStatus_quiet cfg) (.when ?_)
  refine .modify_bind (fun _ => ⟨rfl, rfl, rfl, rfl, rfl, rfl, rfl, rfl⟩) (.get_bind
    fun t => .when ?_)
  exact .bind (rollback_quiet cfg) fun _ => .get_bind fun _ => onState_quiet _

theorem sendFetched_quiet (c : Int) : Quiet (sendFetched cfg id c) := by
  refine .get_bind fun s => .bind (fetchE_quiet cfg c)
    fun cc => .ofOption_bind fun r => .bind (setE_quiet cfg c _) fun _ => ?_
  exact emit_quiet rfl

theorem retransmitCkpt_quiet (dest : Nat) (n : Int) : Quiet (retransmitCkpt cfg dest n) := by
  refine .when (.bind (fetchE_quiet cfg n) fun e => ?_)
  cases e.mine with
  | none => exact .pure
  | some c => exact .bind (emit_quiet rfl) fun _ => .get_bind fun _ => .assert

theorem retransmitNormal_quiet (m : StatusMsg) (n : Int) : Quiet (retransmitNormal cfg id m n) := by
  refine .when (.bind (fetchC_quiet cfg n) fun cc => .bind (emitOpt_quiet _ _) fun _ => .when ?_)
  exact .bind (fetchP_quiet cfg n) fun pc => .get_bind fun _ => emitOpt_quiet _ _

theorem findPps_quiet (m : StatusMsg) (v n : Int) : Quiet (findPps cfg id m v n) :=
  .get_bind fun _ => .ite .ofOption (.ite (.bind (fetchP_quiet cfg n) fun _ => .pure) .pure)

theorem retransmitAck_quiet (m : StatusMsg) (i : Nat) : Quiet (retransmitAck m i) := by
  refine .get_bind fun s => ?_
  cases s.vi.myVacks i with
  | none => exact .pure
  | some vca => exact .when (emit_quiet rfl)

theorem takeBatch_quiet : Quiet (takeBatch cfg) :=
  .get_bind fun _ => .modify_bind (fun _ => ⟨rfl, rfl, rfl, rfl, rfl, rfl, rfl, rfl⟩) .pure

variable {cfg}

/-! ## What `vi` sends -/

def voteOf : Out → Option Prepare
  | .send dest m => vote (dest, m)
  | .call _ => none

/-- None of the messages that are to be sent is a vote. -/
def Mute (w : ViewInfo) : Prop := ∀ o ∈ w.outs, voteOf o = none

/-- The operation of `vi` sends no vote. -/
abbrev Silent (op : Prog ViewInfo α) : Prop :=
  ∀ w, Within (fun s t => Mute s → Mute t) (fun s t => Mute s → Mute t) op w

theorem mute_composes :
    Composes (fun s t : ViewInfo => Mute s → Mute t) fun s t => Mute s → Mute t :=
  ⟨fun h h' hs => h' (h hs), fun h h' hs => h' (h hs)⟩

theorem Mute.append {w : ViewInfo} {outs : List Out} (hw : Mute w)
    (h : ∀ o ∈ outs, voteOf o = none) :
    ∀ o ∈ w.outs ++ outs, voteOf o = none := fun o ho => (List.mem_append.1 ho).elim (hw o) (h o)

namespace Silent

variable {β ι : Type} {x : Prog ViewInfo α} {f : α → Prog ViewInfo β}

theorem pure {a : α} : Silent (Pure.pure a : Prog ViewInfo α) := fun _ => .pure id

theorem bind (hx : Silent x) (hf : ∀ a, Silent (f a)) : Silent (x >>= f) :=
  fun w => .bind mute_composes (hx w) fun a t _ => hf a t

theorem get_bind {f : ViewInfo → Prog ViewInfo β} (hf : ∀ w, Silent (f w)) : Silent (get >>= f) :=
  fun w => .get_bind (hf w w)

theorem modify {g : ViewInfo → ViewInfo} (hg : ∀ w, Mute w → Mute (g w)) : Silent (modify g) :=
  fun w => .modify (hg w)

theorem modify_bind {g : ViewInfo → ViewInfo} {f : Unit → Prog ViewInfo β}
    (hg : ∀ w, Mute w → Mute (g w)) (hf : Silent (f ())) :
    Silent (Prog.modify g >>= f) := bind (modify hg) fun _ => hf

theorem assert_bind {b : Bool} {f : Unit → Prog ViewInfo β} (hf : Silent (f ())) :
    Silent (assert b >>= f) := fun w =>
  .assert_bind (fun h => h) fun _ => hf w

theorem ofOption_bind {o : Option α} (hf : ∀ a, Silent (f a)) : Silent (ofOption o >>= f) :=
  fun w =>
  .ofOption_bind (fun h => h) fun a _ => hf a w

theorem when {b : Bool} {x : Prog ViewInfo Unit} (hx : Silent x) : Silent (when b x) :=
  fun w => .when (fun h => h) fun _ => hx w

theorem ite {c : Prop} [Decidable c] {y z : Prog ViewInfo α} (hy : Silent y) (hz : Silent z) :
    Silent (if c then y else z) := fun w =>
  .ite (fun _ => hy w) fun _ => hz w

theorem each {x : ι → Prog ViewInfo Unit} (hx : ∀ i, Silent (x i)) (is : List ι) :
    Silent (each x is) := fun _ =>
  .each mute_composes (fun h => h) (fun i t _ => hx i t) is

theorem out {dest : Option Nat} {m : Msg} (hm : vote (dest, m) = none) :
    Silent (ViewInfo.out (.send dest m)) :=
  .modify fun _ hw => hw.append fun o ho => by rw [List.mem_singleton.1 ho]; exact hm

variable (cfg) (id)

theorem onNv (j : Nat) (op : NVEnv → Prog NVInfo α) : Silent (ViewInfo.onNv cfg id j op) := by
  intro w
  have hgo : Mute w → Mute (ViewInfo.onNv cfg id j op w).2 := fun hw => hw.append fun o ho => by
    obtain ⟨c, -, rfl⟩ := List.mem_map.1 ho
    rfl
  exact Ensures.of_result (fun _ _ => hgo) fun _ => hgo

theorem sendProofs (n v : Int) (dest : Nat) : Silent (ViewInfo.sendProofs cfg id n v dest) := by
  refine .modify fun w hw => ?_
  cases w.oplog.fetch cfg.P.maxOut n with
  | none => exact hw
  | some ri =>
    refine hw.append fun o ho => ?_
    obtain ⟨x, -, rfl⟩ := List.mem_map.1 ho
    rfl

theorem markStable (ls : Int) : Silent (ViewInfo.markStable cfg id ls) :=
  .modify_bind (fun _ hw => hw) (.get_bind fun _ => .onNv cfg id _ _)

theorem moveAck (i k : Nat) : Silent (ViewInfo.moveAck cfg id i k) := by
  refine .get_bind fun w => ?_
  cases (w.vacks i).vacks k with
  | none => exact .pure
  | some ack => exact .when (.bind (.onNv cfg id _ _) fun _ => .when (.modify fun _ hw => hw))

theorem moveVC (j : Nat) (v : Int) (i : Nat) : Silent (ViewInfo.moveVC cfg id j v i) := by
  refine .get_bind fun w => ?_
  cases w.lastVcs i with
  | none => exact .pure
  | some vc => exact .when (.bind (.onNv cfg id _ _) fun _ => .when (.modify fun _ hw => hw))

theorem addAck (vca : ViewChangeAck) (verified : Bool) :
    Silent (ViewInfo.addAck cfg id vca verified) := by
  refine .when (.assert_bind (.bind (.get_bind fun _ => .ite (.onNv cfg id _ _) .pure)
    fun _ => .when (.modify fun w hw => ?_)))
  unfold ViewInfo.storeAck
  dsimp only
  split
  · exact hw
  · exact hw

theorem addNewView (nv : NewView) (verified : Bool) :
    Silent (ViewInfo.addNewView cfg id nv verified) :=
  .get_bind fun _ =>
    .when (.bind (.onNv cfg id _ _) fun _ => .when (.each (fun i => .moveVC cfg id _ _ i) _))

theorem addViewChange (vc : ViewChange) (verified digestOk : Bool) :
    Silent (ViewInfo.addViewChange cfg id vc verified digestOk) := by
  refine .get_bind fun w =>
    .ite .pure (.ite ?_ (.assert_bind (.ite (.bind ?_ fun _ => .pure) .pure)))
  · refine .bind (.onNv cfg id _ _) fun stored => .get_bind
      fun w => .bind (.when (.each (fun i => .moveAck cfg id i _) _)) fun _ => ?_
    refine .modify_bind (fun w hw => ?_) .pure
    split
    · exact hw
    · exact hw
  · exact .modify_bind (fun _ hw => hw) (.get_bind
      fun _ => .when (.assert_bind (.modify_bind (fun _ hw => hw) (.out rfl))))

theorem markStale : Silent (ViewInfo.markStale cfg id) := by
  refine .each (fun i => .modify_bind ?_ (.bind (.onNv cfg id _ _) fun _ => .modify ?_)) _
  · exact fun _ hw => hw
  · exact fun _ hw => hw

theorem viewChange (v le : Int) (word : Nat → BitVec 64) (entry : Nat → ReqInfo)
    (digest : Int → Option Digest) :
    Silent (ViewInfo.viewChange cfg id v le word entry digest) := by
  refine .modify_bind (fun _ hw => hw) (.get_bind
    fun w => .ofOption_bind fun vc => .bind (.out rfl) fun _ => ?_)
  refine .modify_bind (fun _ hw => hw)
    (.ite (.get_bind fun w => .assert_bind (.bind (.onNv cfg id _ _) fun _ => ?_)) ?_)
  · exact .bind (.each (fun i => .moveVC cfg id _ _ i) _)
      fun _ => .each (fun i => .each (fun k => .moveAck cfg id i k) _) _
  · refine .each (fun i => .get_bind fun w => ?_) _
    cases w.lastVcs i with
    | none => exact .pure
    | some lvc => exact .when (.modify_bind (fun _ hw => hw) (.out rfl))

/-- What is sent is no vote, where nothing was to be sent before. -/
theorem mute {op : Prog ViewInfo α} (hop : Silent op) {w : ViewInfo} (houts : w.outs = []) :
    Mute (op w).2 := by
  have hempty : Mute w := by
    rw [Mute, houts]
    nofun
  cases hr : (op w).1 with
  | some a => exact (hop w).result.1 a hr hempty
  | none => exact (hop w).result.2 hr hempty

end Silent

/-! ## What the `NV_info`s ask for -/

/-- What a handler keeps (`I`), what holds where a new view is due (`D`), and what is left where it
stops (`N`). -/
structure Bears (D I N : Replica → Prop) : Prop where
  due : ∀ s t, Aside s t → D s → D t
  kept : ∀ s t, Aside s t → I s → I t
  rest : ∀ s t, Aside s t → N s → N t
  ofDue : ∀ s, D s → N s
  ofKept : ∀ s, I s → N s

/-- The handler of the calls processes a new view that is due. -/
structure Serves (h : NVCall → Prog Replica Unit) (D I N : Replica → Prop) : Prop where
  status : Quiet (h .sendStatus)
  newView : ∀ s min d max ms, D s → Ensures (h (.processNewView min d max ms)) s (fun _ t => I t) N

theorem pnvOuts_cons (o : Out) (outs : List Out) :
    pnvOuts (o :: outs) = pnvOuts outs + if ViewInfo.isPnv o then 1 else 0 :=
  List.countP_cons

section Perform

variable {D : Replica → Prop} (hb : Bears D I N) (hh : Serves h D I N)

include hb hh

theorem perform_ensures :
    ∀ (outs : List Out) (s : Replica), (∀ o ∈ outs, voteOf o = none) → pnvOuts outs ≤ 1 →
    (pnvOuts outs = 0 → I s) → (pnvOuts outs = 1 → D s) →
    Ensures (perform h outs) s (fun _ t => I t ∧ (pnvOuts outs = 0 → Aside s t)) N := by
  intro outs
  induction outs with
  | nil => exact fun s _ _ h0 _ => Reaches.pure ⟨h0 rfl, fun _ => .refl⟩
  | cons o outs ih =>
    intro s hmute hle h0 h1
    have hmute' : ∀ o ∈ outs, voteOf o = none := fun o ho => hmute o (List.mem_cons_of_mem _ ho)
    have hrest : N s := by
      rcases (by omega : pnvOuts (o :: outs) = 0 ∨ pnvOuts (o :: outs) = 1) with he | he
      · exact hb.ofKept s (h0 he)
      · exact hb.ofDue s (h1 he)
    have hquiet : ∀ {x : Prog Replica Unit}, Quiet x → pnvOuts (o :: outs) = pnvOuts outs →
        Ensures (do x; perform h outs) s (fun _ t =>
          I t ∧ (pnvOuts (o :: outs) = 0 → Aside s t)) N := by
      intro x hx he
      rw [he] at hle h0 h1 ⊢
      refine Ensures.bind ((hx s).imp (fun _ _ ht => ht) fun t ht => hb.rest s t ht hrest)
        fun _ t ht => ?_
      refine (ih t hmute' hle (fun hc => hb.kept s t ht (h0 hc))
        fun hc => hb.due s t ht (h1 hc)).imp (fun _ u hu => ⟨hu.1, fun hc => ?_⟩)
        fun _ h => h
      exact ht.trans (hu.2 hc)
    cases o with
    | send dest m => exact hquiet (emit_quiet (hmute _ List.mem_cons_self)) (pnvOuts_cons _ _)
    | call c =>
      cases c with
      | sendStatus => exact hquiet hh.status (pnvOuts_cons _ _)
      | processNewView min d max ms =>
        have he : pnvOuts (.call (.processNewView min d max ms) :: outs) = pnvOuts outs + 1 :=
          pnvOuts_cons _ _
        refine Ensures.bind (hh.newView s min d max ms (h1 (by omega))) fun _ t ht => ?_
        refine (ih t hmute' (by omega) (fun _ => ht)
          fun hc => by omega).imp (fun _ u hu => ⟨hu.1, fun hc => by omega⟩) fun _ h => h

/-- Messages and statuses change nothing. -/
theorem perform_rest {outs : List Out} (hmute : ∀ o ∈ outs, voteOf o = none)
    (h0 : pnvOuts outs = 0) (hs : N s) :
    Ensures (perform h outs) s (fun _ t => N t) N := by
  induction outs generalizing s with
  | nil => exact Reaches.pure hs
  | cons o outs ih =>
    rw [pnvOuts_cons] at h0
    have hx : ∀ {x : Prog Replica Unit}, Quiet x → Ensures x s (fun _ t => N t) N := fun hx =>
      (hx s).imp (fun _ t ht => hb.rest s t ht hs) fun t ht => hb.rest s t ht hs
    refine Ensures.bind (Q := fun _ t => N t) ?_
      fun _ t ht => ih (fun o ho => hmute o (List.mem_cons_of_mem _ ho)) (by omega) ht
    cases o with
    | send dest m => exact hx (emit_quiet (hmute _ List.mem_cons_self))
    | call c =>
      cases c with
      | sendStatus => exact hx hh.status
      | processNewView min d max ms => exact absurd h0 (Nat.succ_ne_zero _)

end Perform

/-- What was asked for is taken out of `vi`. -/
def served (s : Replica) (w : ViewInfo) : Replica := { s with vi := { w with outs := [] } }

/-- **An operation of `vi`**, and what it asks for. -/
theorem onVi_ensures {op : Prog ViewInfo α} {D I : Option α → Replica → Prop} {K A : Prop}
    (hb : ∀ o, Bears (D o) (I o) N) (hh : ∀ o, Serves h (D o) (I o) N)
    (hop : ViewInfo.Keeps K A cfg id op s.vi) (hsilent : Silent op) (houts : s.vi.outs = [])
    (hN : N (served s (op s.vi).2)) (h0 : ViewInfo.Kept cfg id K A s.vi (op s.vi).2 →
      pnvOuts (op s.vi).2.outs = 0 → I (op s.vi).1 (served s (op s.vi).2))
    (h1 : ViewInfo.Kept cfg id K A s.vi (op s.vi).2 → pnvOuts (op s.vi).2.outs = 1 →
      D (op s.vi).1 (served s (op s.vi).2)) :
    Ensures (onVi h op) s (fun a t => I (some a) t ∧ (op s.vi).1 = some a ∧
      (pnvOuts (op s.vi).2.outs = 0 → Aside (served s (op s.vi).2) t)) N := by
  obtain ⟨hk1, hk2⟩ := hop.result
  have hmute : Mute (op s.vi).2 := hsilent.mute houts
  refine Ensures.of_apply (y := do perform h (op s.vi).2.outs; ofOption (op s.vi).1)
    (t := served s (op s.vi).2) rfl ?_
  have hkept : ViewInfo.Kept cfg id K A s.vi (op s.vi).2 →
      Ensures (perform h (op s.vi).2.outs) (served s (op s.vi).2)
        (fun _ t => I (op s.vi).1 t ∧
          (pnvOuts (op s.vi).2.outs = 0 → Aside (served s (op s.vi).2) t)) N := fun hk =>
    perform_ensures (hb _) (hh _) _ _ hmute hk.ok.once (h0 hk) (h1 hk)
  cases ho : (op s.vi).1 with
  | some a =>
    rw [ho] at hkept
    exact Ensures.bind (hkept (hk1 a ho)) fun _ t ht => Reaches.pure ⟨ht.1, rfl, ht.2⟩
  | none =>
    refine Ensures.bind (Q := fun _ t => N t) ?_ fun _ t ht => Reaches.stop ht
    rcases hk2 ho with hk | hz
    · exact (hkept hk).imp (fun _ t ht => (hb _).ofKept t ht.1) fun _ h => h
    · exact perform_rest (hb none) (hh none) hmute hz hN

/-- Noting a certificate asks for nothing. -/
theorem noteCert_ensures {w : ViewInfo} (hw : ViewInfo.Ok cfg id w) (i : Int) (pc : PreparedCert)
    (complete : Bool) :
    Ensures (noteCert cfg i pc complete) w (fun _ u =>
        ViewInfo.Kept cfg id True True w u ∧ u.outs = w.outs) (fun u => u.outs = w.outs) := by
  have hand : ∀ {x : Prog ViewInfo Unit}, ViewInfo.Keeps True True cfg id x w →
      Ensures x w (fun _ u => u.outs = w.outs) (fun u => u.outs = w.outs) →
      Ensures x w (fun _ u => ViewInfo.Kept cfg id True True w u ∧ u.outs = w.outs)
        (fun u => u.outs = w.outs) := fun h1 h2 =>
    (Ensures.and h1 h2).imp (fun _ _ h => h) fun _ h => h.2
  unfold noteCert
  cases (if complete then pc.pp else none) with
  | some pp =>
    refine hand (ViewInfo.addComplete_keeps hw pp) ?_
    refine Reaches.get_bind (Reaches.assert_bind rfl
      fun _ => Reaches.ofOption_bind rfl fun ri _ => Reaches.assert_bind rfl fun _ => ?_)
    exact Reaches.modify trivial rfl
  | none =>
    cases voted pc with
    | none => exact Reaches.pure ⟨.refl hw, rfl⟩
    | some d =>
      refine hand (ViewInfo.addIncomplete_keeps hw i d) ?_
      exact Reaches.get_bind (Reaches.ofOption_bind rfl fun ri _ => Reaches.modify trivial rfl)

theorem onVi_noteCert (hvi : ViewInfo.Ok cfg id s.vi) (houts : s.vi.outs = [])
    (hN : ∀ w, N (served s w)) (i : Int) (pc : PreparedCert) (complete : Bool) :
    Ensures (onVi h (noteCert cfg i pc complete)) s
      (fun _ t => ∃ w, t = served s w ∧ ViewInfo.Kept cfg id True True s.vi w) N := by
  obtain ⟨h1, h2⟩ := (noteCert_ensures hvi i pc complete).result
  set w := (noteCert cfg i pc complete s.vi).2 with hw
  refine Ensures.of_apply (y := do perform h w.outs; ofOption (noteCert cfg i pc complete s.vi).1)
    (t := served s w) rfl ?_
  have hnone : w.outs = [] := by
    cases ho : (noteCert cfg i pc complete s.vi).1 with
    | some a => exact (h1 a ho).2.trans houts
    | none => exact (h2 ho).trans houts
  rw [hnone]
  refine Ensures.bind (Q := fun _ x => x = served s w) (Reaches.pure rfl) ?_
  rintro _ _ rfl
  exact Reaches.ofOption (hN w) fun a ha => ⟨w, rfl, (h1 a ha).1⟩

/-- **Entering the view `s.v`**. -/
theorem enterView_ensures {D : Replica → Prop} (hb : Bears D I N) (hh : Serves h D I N)
    (hid : id < cfg.n) (hvi : ViewInfo.Ok cfg id s.vi) (houts : s.vi.outs = []) (hlt : s.vi.v < s.v)
    (hN : ∀ w, N (served s w)) (h0 : ∀ x w, ViewInfo.Entered cfg s.v s.vi x →
      ViewInfo.Kept cfg id True True x w → pnvOuts w.outs = 0 → I (served s w))
    (h1 : ∀ x w, ViewInfo.Entered cfg s.v s.vi x → ViewInfo.Kept cfg id True True x w →
      pnvOuts w.outs = 1 → D (served s w))
    (le : Int) (word : Nat → BitVec 64) (entry : Nat → ReqInfo) (digest : Int → Option Digest) :
    Ensures (onVi h (ViewInfo.viewChange cfg id s.v le word entry digest))
      s (fun _ t => I t) N := by
  set op := ViewInfo.viewChange cfg id s.v le word entry digest with hop
  obtain ⟨hk1, hk2⟩ := (ViewInfo.viewChange_ensures (K := True)
    (A := True) hid hvi (by rw [houts]; rfl) hlt le word entry digest).result
  have hmute : Mute (op s.vi).2 := (Silent.viewChange cfg id _ _ _ _ _).mute houts
  refine Ensures.of_apply (y := do perform h (op s.vi).2.outs; ofOption (op s.vi).1)
    (t := served s (op s.vi).2) rfl ?_
  have hkept :
    (∃ x, ViewInfo.Entered cfg s.v s.vi x ∧ ViewInfo.Kept cfg id True True x (op s.vi).2) →
      Ensures (perform h (op s.vi).2.outs) (served s (op s.vi).2) (fun _ t => I t) N := by
    rintro ⟨x, hx, hk⟩
    exact (perform_ensures hb hh _ _ hmute hk.ok.once (h0 x _ hx hk) (h1 x _ hx hk)).imp
      (fun _ t ht => ht.1) fun _ h => h
  cases ho : (op s.vi).1 with
  | some a => exact Ensures.bind (hkept (hk1 a ho)) fun _ t ht => Reaches.pure ht
  | none =>
    refine Ensures.bind (Q := fun _ t => N t) ?_ fun _ t ht => Reaches.stop ht
    rcases hk2 ho with hk | hz
    · exact (hkept hk).imp (fun _ t ht => hb.ofKept t ht) fun _ h => h
    · exact perform_rest hb hh hmute hz (hN _)

/-! ## Invariants that the handlers keep -/

/-- The operation of `vi` does what every operation does that stays in the view, whatever the
condition on new views is. -/
abbrev Stays (cfg : Cfg) (id : Nat) (op : Prog ViewInfo α) : Prop :=
  ∀ {K A : Prop} {w : ViewInfo}, ViewInfo.Ok cfg id w →
    pnvOuts w.outs = 0 → ViewInfo.Keeps K A cfg id op w

/-- An invariant `I` that bears new keys and operations of `vi`; where a handler stops, `N`
holds. -/
structure Kept (cfg : Cfg) (id : Nat) (h : NVCall → Prog Replica Unit)
    (I N : Replica → Prop) : Prop where
  rest : ∀ s, I s → N s
  aside : ∀ s t, Aside s t → I s → I t
  stalePC : ∀ n, Holds I N (stalePC cfg id n)
  onVi : ∀ {α : Type} {op : Prog ViewInfo α}, Stays cfg id op → Silent op → Holds I N (onVi h op)

/-- It also bears stable checkpoints and pre-prepares of the primary. -/
structure KeptStable (cfg : Cfg) (id : Nat) (h : NVCall → Prog Replica Unit)
    (I N : Replica → Prop) : Prop extends Kept cfg id h I N where
  advance : ∀ n haveState, Holds I N (advance cfg id h n haveState)
  sendPrePrepare : Holds I N (sendPrePrepare cfg id)

namespace Kept

variable (hk : Kept cfg id h I N)

include hk

theorem quiet {x : Prog Replica α} (hx : Quiet x) : Holds I N x :=
  .of_within hx (fun s t ht hs => hk.aside s t ht hs) hk.rest

theorem modify {g : Replica → Replica} (hg : ∀ s, Aside s (g s)) : Holds I N (modify g) :=
  .modify fun s hs => hk.aside _ _ (hg s) hs

theorem modify_bind {β : Type} {g : Replica → Replica} {f : Unit → Prog Replica β}
    (hg : ∀ s, Aside s (g s)) (hf : Holds I N (f ())) :
    Holds I N (Prog.modify g >>= f) := .modify_bind (fun s hs => hk.aside _ _ (hg s) hs) hf

theorem sendNewKey (hid : id < cfg.n) : Holds I N (sendNewKey cfg id h) := by
  refine .bind (hk.quiet (emit_quiet rfl)) fun _ => .get_bind fun s => ?_
  refine .bind (hk.quiet (.each (fun n => staleE_quiet cfg n) _))
    fun _ => .bind (.each (fun n => hk.stalePC n) _) fun _ => ?_
  exact hk.onVi (fun hw houts => ViewInfo.markStale_keeps hid hw houts) (.markStale cfg id)

theorem updateMaxRec (hid : id < cfg.n) : Holds I N (updateMaxRec cfg id h) :=
  .get_bind fun _ => .when fun _ =>
    hk.modify_bind (fun _ => ⟨rfl, rfl, rfl, rfl, rfl, rfl, rfl, rfl⟩) (hk.sendNewKey hid)

theorem execute (hid : id < cfg.n) (pp : PrePrepareMsg) : Holds I N (execute cfg id h pp) := by
  refine .get_bind fun s => .assert_bind hk.rest fun _ => .ofOption_bind hk.rest fun st => ?_
  refine hk.modify_bind (fun _ => ⟨rfl, rfl, rfl, rfl, rfl, rfl, rfl, rfl⟩)
    (.bind (.each (fun other => ?_) _) fun _ => ?_)
  · refine .bind (.when fun _ => hk.sendNewKey hid) fun _ => ?_
    exact hk.modify fun _ => ⟨rfl, rfl, rfl, rfl, rfl, rfl, rfl, rfl⟩
  · exact .when fun _ => hk.quiet (onState_quiet _)

theorem executePrepared (hid : id < cfg.n) : Holds I N (executePrepared cfg id h) := by
  refine .get_bind fun s => .when fun _ => .bind (hk.quiet (prepared_quiet cfg _)) fun pp => ?_
  cases pp with
  | none => exact .pure
  | some pp => exact .when fun _ => hk.execute hid pp

end Kept

namespace KeptStable

variable (hk : KeptStable cfg id h I N)

include hk

theorem markStable :
    ∀ (fuel : Nat) (n : Int) (haveState : Bool), Holds I N (markStable cfg id h fuel n haveState)
  | 0, _, _ => .pure
  | fuel + 1, n, haveState => by
    refine .get_bind fun s => .when fun _ => .bind (hk.advance n haveState)
      fun _ => .get_bind fun s => ?_
    refine .bind (.when fun _ => hk.quiet (ownStable_quiet cfg _)) fun _ => .get_bind fun s => ?_
    refine .bind (hk.quiet (moveCkpts_quiet cfg _ _)) fun newLs => .get_bind fun s => ?_
    refine .bind (.when fun _ => .bind (hk.quiet (haveCkpt_quiet cfg newLs)) fun have' => ?_)
      fun _ => .get_bind fun s => ?_
    · exact markStable fuel newLs have'
    · exact .when fun _ => hk.sendPrePrepare

theorem sendCheckpoint : Holds I N (sendCheckpoint cfg id h) := by
  refine .get_bind fun s => .bind (hk.quiet (fetchE_quiet cfg _))
    fun cc => .ofOption_bind hk.rest fun r => ?_
  refine .bind (hk.quiet (setE_quiet cfg _ _)) fun _ =>
    .bind (.when fun _ => ?_) fun _ => hk.quiet (emit_quiet rfl)
  exact hk.markStable _ _ _

theorem handleCheckpoint (m : Checkpoint) (verify old : Bool) :
    Holds I N (handleCheckpoint cfg id h m verify old) := by
  refine .get_bind fun s => .when fun _ => .ite (fun _ => ?_)
    fun _ => .when fun _ => hk.quiet (checkpointAbove_quiet cfg m)
  refine .bind (hk.quiet (fetchE_quiet cfg _)) fun cs => .ofOption_bind hk.rest fun r => ?_
  exact .bind (hk.quiet (setE_quiet cfg _ _)) fun _ => .when fun _ => hk.markStable _ _ _

theorem handleRequest (r : List UInt8) : Holds I N (handleRequest cfg id r) :=
  hk.modify_bind (fun _ => ⟨rfl, rfl, rfl, rfl, rfl, rfl, rfl, rfl⟩) (.get_bind
    fun _ => .when fun _ => hk.sendPrePrepare)

/-! ## Execution -/

variable (hid : id < cfg.n)

include hid

theorem commitNext (pp : PrePrepareMsg) : Holds I N (commitNext cfg id h pp) := by
  refine .bind (hk.executePrepared hid) fun _ =>
    hk.modify_bind (fun _ => ⟨rfl, rfl, rfl, rfl, rfl, rfl, rfl, rfl⟩) ?_
  refine .get_bind fun s => .assert_bind hk.rest fun _ => ?_
  exact hk.modify_bind (fun _ => ⟨rfl, rfl, rfl, rfl, rfl, rfl, rfl, rfl⟩) (.when
    fun _ => hk.sendCheckpoint)

theorem commitLoop : ∀ fuel, Holds I N (commitLoop cfg id h fuel)
  | 0 => .pure
  | fuel + 1 => by
    refine .get_bind fun s => .ite (fun _ => .pure)
      fun _ => .bind (hk.quiet (committed_quiet cfg _)) fun pp => ?_
    cases pp with
    | none => exact .pure
    | some pp =>
      exact .ite (fun _ => .bind (hk.commitNext hid pp) fun _ => commitLoop fuel) fun _ => .pure

theorem executeCommitted : Holds I N (executeCommitted cfg id h) := by
  refine .get_bind fun s => .when fun _ => .bind (hk.commitLoop hid _)
    fun returned => .get_bind fun s => ?_
  exact .when fun _ => hk.sendPrePrepare

/-! ## Messages -/

theorem sendCommit (n : Int) : Holds I N (sendCommit cfg id h n) := by
  refine .get_bind fun s => .bind (.when fun _ => hk.executePrepared hid)
    fun _ => .get_bind fun s => ?_
  refine .bind (hk.quiet (emit_quiet rfl)) fun _ =>
    hk.modify_bind (fun _ => ⟨rfl, rfl, rfl, rfl, rfl, rfl, rfl, rfl⟩) ?_
  refine .bind (hk.quiet (fetchC_quiet cfg n)) fun cs => .ofOption_bind hk.rest fun r => ?_
  exact .bind (hk.quiet (setC_quiet cfg n _)) fun _ => .when fun _ => hk.executeCommitted hid

theorem commitIfComplete (n : Int) : Holds I N (commitIfComplete cfg id h n) := by
  refine .bind (hk.quiet (fetchP_quiet cfg n)) fun pc => .ofOption_bind hk.rest fun complete => ?_
  exact .when fun _ => hk.sendCommit hid n

theorem handleCommit (m : Commit) (verify : Bool) : Holds I N (handleCommit cfg id h m verify) := by
  refine .bind (hk.quiet (inWv_quiet cfg _ _ _)) fun w => .get_bind fun s => .when fun _ => ?_
  refine .bind (hk.quiet (fetchC_quiet cfg _)) fun cs => .ofOption_bind hk.rest fun r => ?_
  exact .bind (hk.quiet (setC_quiet cfg _ _)) fun _ => .when fun _ => hk.executeCommitted hid

theorem handleAck (m : ViewChangeAck) (verified : Bool) :
    Holds I N (Replica.onVi h (ViewInfo.addAck cfg id m verified)) :=
  hk.onVi (fun hw _ => ViewInfo.addAck_keeps hid hw m _) (.addAck cfg id m _)

end KeptStable

namespace KeptStable

variable (hk : KeptStable cfg id (calls cfg id) I N) (hid : id < cfg.n)

include hk hid

theorem adoptState (c : Int) : Holds I N (adoptState cfg id c) := by
  refine hk.modify_bind (fun _ => ⟨rfl, rfl, rfl, rfl, rfl, rfl, rfl, rfl⟩)
    (.bind (hk.updateMaxRec hid) fun _ => ?_)
  refine hk.modify_bind (fun _ => ⟨rfl, rfl, rfl, rfl, rfl, rfl, rfl, rfl⟩) (.get_bind
    fun s => .bind (.when fun _ => ?_) fun _ => ?_)
  · exact .bind (hk.quiet (haveCkpt_quiet cfg _)) fun have' => hk.markStable _ _ _
  · exact hk.quiet (sendFetched_quiet cfg c)

/-- `new_state`, where raising `seqno` is allowed. -/
theorem newState (hraise : ∀ s n, s.seqno ≤ n → I s → I { s with seqno := n }) (c : Int) :
    Holds I N (newState cfg id c) := by
  refine hk.modify_bind (fun _ => ⟨rfl, rfl, rfl, rfl, rfl, rfl, rfl, rfl⟩) (.get_bind
    fun s => .bind (.when fun _ => ?_) fun _ => ?_)
  · exact hk.adoptState hid c
  refine .get_bind fun s => .assert_bind hk.rest fun _ => .bind (.when fun _ => ?_) fun _ => ?_
  · exact hk.markStable _ _ _
  refine .modify_bind (fun s hs => hraise s _ ?_ hs) (.bind (hk.executeCommitted hid)
    fun _ => .get_bind fun s => .when fun _ => ?_)
  · split <;> omega
  · exact hk.sendPrePrepare

theorem handleFetched (hraise : ∀ s n, s.seqno ≤ n → I s → I { s with seqno := n }) (c : Int)
    (mem : Mem) (lm : Nat → Int) :
    Holds I N (handleFetched cfg id c mem lm) :=
  .get_bind fun _ => .when fun _ => .bind (hk.quiet (onState_quiet _))
    fun _ => hk.newState hid hraise c

omit hid

theorem retransmitPps (m : StatusMsg) (pp : Int × Int × Bool) :
    Holds I N (retransmitPps cfg id m pp) := by
  refine .bind (hk.quiet (findPps_quiet cfg m _ _))
    fun found => .bind (hk.quiet (emitOpt_quiet _ _)) fun _ => .when fun _ => ?_
  exact hk.onVi (fun hw _ => ViewInfo.sendProofs_keeps hw _ _ _) (.sendProofs cfg id _ _ _)

theorem retransmitView (m : StatusMsg) : Holds I N (retransmitView cfg id m) := by
  refine .get_bind fun s => .bind (.when fun _ => ?_) fun _ => .ite (fun _ => ?_) fun _ => ?_
  · exact .ofOption_bind hk.rest fun vc => hk.quiet (emit_quiet rfl)
  · exact .when fun _ => hk.quiet (emitOpt_quiet _ _)
  · refine .bind (.when fun _ => .each (fun i => hk.quiet (retransmitAck_quiet m i)) _) fun _ => ?_
    exact .each (fun pp => hk.retransmitPps m pp) _

theorem handleStatus (m : StatusMsg) (verify : Bool) :
    Holds I N (handleStatus cfg id m verify) := by
  refine .get_bind fun s => .when fun _ => .ite (fun _ => .ite (fun _ => ?_) fun _ => ?_)
    fun _ => hk.quiet (emit_quiet rfl)
  · refine .bind (hk.quiet (fetchE_quiet cfg _)) fun e => .ofOption_bind hk.rest fun c => ?_
    exact .assert_bind hk.rest fun _ => hk.quiet (emit_quiet rfl)
  · refine .get_bind fun s => .bind (.each (fun n => hk.quiet (retransmitCkpt_quiet cfg _ n)) _)
      fun _ => .ite (fun _ => ?_) fun _ => ?_
    · exact hk.quiet (emitOpt_quiet _ _)
    · refine .when fun _ => .ite (fun _ => ?_) fun _ => hk.retransmitView m
      exact .each (fun n => hk.quiet (retransmitNormal_quiet cfg m n)) _

end KeptStable

end Replica

end TinyBFT
