import TinyBFT.ViewCalls
import TinyBFT.AckCounts

/-!
# View-change acknowledgements (`View_info.cc`, `View_change_ack.h`)

| here | there |
| --- | --- |
| `ViewOp`, `viewProg` | a call of `View_info` by the replica, with the results of the verifications |
| `overwrite`, `persist`, `viewProgIn` | the same with the blocks of the static build (`special_region.cc:106-144`) |
| `Vouching`, `Genuine`   | an acknowledgement and the view-change that it is about |
| `acksRight`             | when an operation acknowledges what it received |
| `Pending`, `buffersRight` | the acknowledgements that a primary has to keep, and when it files one under its view |

`view_change` acknowledges the stored view-changes of the new view, `add(View_change*)` the ones
that come later. In the static build the former puts the digest of the replica's own message, `vc`,
where that of the stored one, `lvc`, is meant; and `add(View_change*)` compares a narrowed view with
the current one. The static build has one block for the view-changes of a replica, so that a later
one that goes to an `NV_info` is read through `last_vcs` too. `add(View_change_ack*)` files an
acknowledgement for a later view under the current one (`vcai.v = v`), where no later operation
looks for it.
-/

namespace TinyBFT

/-- A call of `View_info`. -/
inductive ViewOp
  | addComplete (pp : PrePrepareMsg)
  | addIncomplete (n : Int) (d : Digest)
  | viewChange (v lastExecuted : Int) (word : Nat → BitVec 64) (entry : Nat →
    ReqInfo) (digest : Int → Option Digest)
  | addViewChange (vc : ViewChange) (verified digestOk : Bool)
  | addNewView (nv : NewView) (verified : Bool)
  | addAck (vca : ViewChangeAck) (verified : Bool)
  | markStable (ls : Int)
  | markStale
  | addMissing (pp : PrePrepareMsg) (digestOk : Bool)
  | addMissingPrepare (p : Prepare)
  | fetchRequest (n : Int)
  | sendProofs (n v : Int) (dest : Nat)

namespace ViewInfo

open Prog (get modify assert ofOption when each Holds Within Composes Reaches)

variable (cfg : Cfg) (id : Nat)

def viewProg : ViewOp → Prog ViewInfo Unit
  | .addComplete pp => addComplete cfg pp
  | .addIncomplete n d => addIncomplete cfg n d
  | .viewChange v le word entry digest => viewChange cfg id v le word entry digest
  | .addViewChange vc verified digestOk => do
    let _ ← addViewChange cfg id vc verified digestOk
  | .addNewView nv verified => addNewView cfg id nv verified
  | .addAck vca verified => addAck cfg id vca verified
  | .markStable ls => markStable cfg id ls
  | .markStale => markStale cfg id
  | .addMissing pp digestOk => do
    let s ← get
    onNv cfg id (cfg.primary s.v) fun V => NVInfo.addMissing V pp digestOk
  | .addMissingPrepare p => do
    let s ← get
    onNv cfg id (cfg.primary s.v) fun V => NVInfo.addMissingPrepare V p
  | .fetchRequest n => do
    let s ← get
    let _ ← onNv cfg id (cfg.primary s.v) fun V => NVInfo.fetchRequest V n
  | .sendProofs n v dest => sendProofs cfg id n v dest

/-! ## The blocks of the static build

In the static build every view-change of replica `i` that is stored is in one block,
`special_region::view_changes[i]`, and `last_vcs[i]` and the `vcs[i].vc` of the `NV_info`s point to
it: a message that is put there is read through all of them. -/

section Blocks

/-- The view-change `vc` is put in the block of its sender. -/
def overwrite (vc : ViewChange) (s : ViewInfo) : ViewInfo :=
  { s with
    lastVcs := Function.update s.lastVcs vc.id ((s.lastVcs vc.id).map fun _ => vc)
    lastNvs := fun j => { s.lastNvs j with
      vcs := Function.update (s.lastNvs j).vcs vc.id
        { (s.lastNvs j).vcs vc.id with vc := ((s.lastNvs j).vcOf vc.id).map fun _ => vc } } }

/-- The replica's new-view message is built in its block, `special_region::new_views[id]`. -/
def overwriteNewView (nv : NewView) (s : ViewInfo) : ViewInfo :=
  { s with lastNvs := Function.update s.lastNvs id { s.lastNvs id with
    nv := (s.lastNvs id).nv.map fun _ => nv } }

/-- `View_change::persist` and `special_region::new_view_change`. The assertion `in_scratch_` of
`persist` is left out, and with it the copy of a block to itself when a message of `last_vcs` is
moved. -/
def persist (vc : ViewChange) : Prog ViewInfo Unit := when cfg.staticLog (modify (overwrite vc))

/-- `startNewView`, the message in its block. -/
def startNewViewIn : Prog ViewInfo Unit := do
  let s ← get
  assert (decide ((s.lastNvs id).v ≤ s.v))
  when cfg.staticLog (modify (overwriteNewView id (NewView.new s.v)))
  let _ ← onNv cfg id id fun V => NVInfo.addNewView V (NewView.new s.v)
  each (moveVC cfg id id s.v) (List.range cfg.n)
  each (fun i => each (moveAck cfg id i) (List.range cfg.n)) (List.range cfg.n)

/-- `viewChange`, the message in its block. -/
def viewChangeIn (v lastExecuted : Int) (word : Nat → BitVec 64) (entry : Nat → ReqInfo)
    (digest : Int → Option Digest) : Prog ViewInfo Unit := do
  modify fun s => discardOld { s with v }
  let s ← get
  let vc ← ofOption (s.buildViewChange cfg id word entry lastExecuted digest)
  persist cfg vc
  out (.send none (.viewChange vc))
  modify fun s => { s with
    lastVcs := Function.update s.lastVcs id (some vc), lastViews :=
      Function.update s.lastViews id v }
  if cfg.primary v = id then startNewViewIn cfg id else each (ackOther cfg id vc) (List.range cfg.n)

/-- `matchViewChange`, the message in its block. -/
def matchViewChangeIn (vc : ViewChange) (vcv : Int) (verified digestOk : Bool) :
    Prog ViewInfo Bool := do
  let stored ← onNv cfg id (cfg.primary vcv) fun V => NVInfo.addViewChange V vc verified digestOk
  when stored (persist cfg vc)
  let s ← get
  when (stored && id == cfg.primary s.v && vcv == s.v)
    (each (fun i => moveAck cfg id i vc.id) (List.range cfg.n))
  modify fun s =>
    if verified && s.lastViews vc.id < vcv then
      { s with lastViews := Function.update s.lastViews vc.id vcv } else s
  pure stored

/-- `addViewChange`, the message in its block. -/
def addViewChangeIn (vc : ViewChange) (verified digestOk : Bool) : Prog ViewInfo Bool := do
  let s ← get
  let vcv := toInt vc.v
  if vcv < s.v then pure false
  else if (s.lastNvs (cfg.primary vcv)).v = vcv then
    matchViewChangeIn cfg id vc vcv verified digestOk
  else do
    assert (decide (vc.id < cfg.n))
    if s.lastViews vc.id < vcv && verified then do
      persist cfg vc
      storeViewChange cfg id vc vcv
      pure true
    else pure false

/-- The operations, with the blocks of the static build. -/
def viewProgIn : ViewOp → Prog ViewInfo Unit
  | .viewChange v le word entry digest => viewChangeIn cfg id v le word entry digest
  | .addViewChange vc verified digestOk => do
    let _ ← addViewChangeIn cfg id vc verified digestOk
  | op => viewProg cfg id op

variable {cfg}

/-- The heap build has a message for each of its pointers. -/
theorem viewProgIn_heap (h : cfg.staticLog = false) (op : ViewOp) :
    viewProgIn cfg id op = viewProg cfg id op := by
  have hwhen : ∀ b, when b (pure () : Prog ViewInfo Unit) = pure () := fun b => by cases b <;> rfl
  have hpersist : ∀ vc, persist cfg vc = pure () := fun vc => by
    rw [persist, h]
    rfl
  have hstart : startNewViewIn cfg id = startNewView cfg id := by
    simp only [startNewViewIn, h]
    rfl
  cases op with
  | viewChange v le word entry digest =>
    simp only [viewProgIn, viewChangeIn, hstart, hpersist]
    rfl
  | addViewChange vc verified digestOk =>
    simp only [viewProgIn, addViewChangeIn, matchViewChangeIn, hpersist, hwhen]
    rfl
  | _ => rfl

end Blocks

/-! ## The message that is acknowledged -/

/-- A `View_info` with the view-changes that it received and verified. -/
structure Vouching where
  s : ViewInfo
  got : List ViewChange

/-- The acknowledgement is about a view-change that was received: its sender, its view and its
digest. -/
def Genuine (got : List ViewChange) (a : ViewChangeAck) : Prop :=
  a.id = id ∧ ∃ m ∈ got, m.id = a.vcid ∧ m.v = a.v ∧ cfg.vcDigest m = a.vcd

instance (got : List ViewChange) (a : ViewChangeAck) : Decidable (Genuine cfg id got a) :=
  inferInstanceAs (Decidable (_ ∧ ∃ m ∈ got, m.id = a.vcid ∧ m.v = a.v ∧ cfg.vcDigest m = a.vcd))

def ackOf : Out → Option ViewChangeAck
  | .send _ (.ack a) => some a
  | _ => none

/-- The acknowledgements that were sent. -/
def acks (s : ViewInfo) : List ViewChangeAck := s.outs.filterMap ackOf

/-- The acknowledgements that were sent and are kept are genuine, and so are, in the heap build, the
view-changes of `last_vcs`. In the static build a block can have got a view-change that was not
verified. -/
structure Vouched (got : List ViewChange) (s : ViewInfo) : Prop where
  sent : ∀ a ∈ s.acks, Genuine cfg id got a
  mine : ∀ j a, s.myVacks j = some a → Genuine cfg id got a
  stored : cfg.staticLog = false → ∀ i m, i ≠ id → s.lastVcs i = some m → m.id = i ∧ m ∈ got

/-- `add(View_change*)` acknowledges `vc`. -/
def acknowledges (s : ViewInfo) (vc : ViewChange) (verified : Bool) : Bool :=
  verified && toInt vc.v == s.v && (s.lastNvs (cfg.primary s.v)).v != s.v &&
    decide (s.lastViews vc.id < s.v) &&
    id != cfg.primary s.v && vc.id != cfg.primary s.v

/-- The operation sends the digest of the message that it acknowledges, under its view:
`view_change` of the static build acknowledges none, and a view-change that `add` acknowledges is
for the current view. -/
def acksRight (s : ViewInfo) : ViewOp → Bool
  | .viewChange v .. => !cfg.staticLog || cfg.primary v == id ||
      (List.range cfg.n).all fun i => i == id || i == cfg.primary v ||
        !(s.lastVcs i).any fun vc => vc.v == v
  | .addViewChange vc verified _ => !acknowledges cfg id s vc verified || vc.v == s.v
  | _ => true

/-- The state that an operation leaves, also where an assertion stops it. -/
def Vouching.step (σ : Vouching) (op : ViewOp) : Option Vouching :=
  some ⟨(viewProgIn cfg id op).after σ.s, match op with
    | .addViewChange vc true _ => vc :: σ.got
    | _ => σ.got⟩

/-- From `s` to `t` no acknowledgement was sent, and in the heap build no view-change of another
replica was stored. -/
structure Meek (s t : ViewInfo) : Prop where
  sent : ∀ a ∈ t.acks, a ∈ s.acks
  mine : ∀ j a, t.myVacks j = some a → s.myVacks j = some a
  stored : cfg.staticLog = false → ∀ i m, i ≠ id → t.lastVcs i = some m → s.lastVcs i = some m

variable {cfg id} {got : List ViewChange} {s t u : ViewInfo} {α : Type}

theorem Meek.refl (s : ViewInfo) : Meek cfg id s s :=
  ⟨fun _ h => h, fun _ _ h => h, fun _ _ _ _ h => h⟩

theorem Meek.trans (h : Meek cfg id s t) (h' : Meek cfg id t u) : Meek cfg id s u :=
  ⟨fun a ha => h.sent a (h'.sent a ha), fun j a ha =>
    h.mine j a (h'.mine j a ha), fun hb i m hi hm => h.stored hb i m hi (h'.stored hb i m hi hm)⟩

theorem meek_composes : Composes (Meek cfg id) (Meek cfg id) := ⟨Meek.trans, Meek.trans⟩

theorem Vouched.meek (h : Vouched cfg id got s) (hst : Meek cfg id s t) : Vouched cfg id got t :=
  ⟨fun a ha => h.sent a (hst.sent a ha), fun j a ha => h.mine j a (hst.mine j a ha),
    fun hb i m hi hm => h.stored hb i m hi (hst.stored hb i m hi hm)⟩

theorem Vouched.more (h : Vouched cfg id got s) (vc : ViewChange) :
    Vouched cfg id (vc :: got) s := by
  have hg : ∀ a, Genuine cfg id got a → Genuine cfg id (vc :: got) a :=
    fun a ⟨h1, m, h2, h3⟩ => ⟨h1, m, List.mem_cons_of_mem _ h2, h3⟩
  exact ⟨fun a ha => hg a (h.sent a ha), fun j a ha => hg a (h.mine j a ha),
    fun hb i m hi hm =>
      ⟨(h.stored hb i m hi hm).1, List.mem_cons_of_mem _ (h.stored hb i m hi hm).2⟩⟩

/-- What an `NV_info` asks for is no acknowledgement. -/
theorem ackOf_calls (calls : List NVCall) : (calls.map Out.call).filterMap ackOf = [] :=
  List.filterMap_eq_nil_iff.2 fun o ho => by
    obtain ⟨c, -, rfl⟩ := List.mem_map.1 ho
    rfl

abbrev Meekly (cfg : Cfg) (id : Nat) (x : Prog ViewInfo α) (s : ViewInfo) : Prop :=
  Within (Meek cfg id) (Meek cfg id) x s

theorem onNv_meek (j : Nat) (op : NVEnv → Prog NVInfo α) (s : ViewInfo) :
    Meekly cfg id (onNv cfg id j op) s := by
  have h : Meek cfg id s (put s j (op (s.nvEnv cfg id) (s.lastNvs j)).2) :=
    ⟨fun a ha => by
        simp only [acks, put, List.filterMap_append, ackOf_calls, List.append_nil] at ha
        exact ha, fun _ _ h => h, fun _ _ _ _ h => h⟩
  exact Prog.Ensures.of_result (fun _ _ => h) fun _ => h

theorem overwrite_meek (h : cfg.staticLog = true) (vc : ViewChange) (s : ViewInfo) :
    Meek cfg id s (overwrite vc s) := by
  refine ⟨fun _ h => h, fun _ _ h => h, fun hb => ?_⟩
  rw [h] at hb
  cases hb

theorem persist_meek (vc : ViewChange) (s : ViewInfo) : Meekly cfg id (persist cfg vc) s :=
  .when (.refl s) fun h => .modify (overwrite_meek h vc s)

/-- A message that is put in its block is read through the pointers to it, in the static build. -/
theorem persist_ensures (id : Nat) (vc : ViewChange) (s : ViewInfo) {E : ViewInfo → Prop} :
    Prog.Ensures (persist cfg vc) s
      (fun _ t => Meek cfg id s t ∧ t.v = s.v ∧ ∀ i, i ≠ vc.id → t.lastVcs i = s.lastVcs i) E :=
  Reaches.when (fun h =>
    Reaches.modify trivial ⟨overwrite_meek h vc s, rfl, fun _ hi => Function.update_of_ne hi _ _⟩)
    fun _ => ⟨.refl s, rfl, fun _ _ => rfl⟩

theorem moveVC_meek (j : Nat) (v : Int) (i : Nat) (s : ViewInfo) :
    Meekly cfg id (moveVC cfg id j v i) s := by
  refine .get_bind ?_
  cases s.lastVcs i with
  | none => exact .pure (.refl s)
  | some vc =>
    refine .when (.refl s) fun _ => .bind meek_composes (onNv_meek j _ s)
      fun added t _ => .when (.refl t) fun _ => .modify ?_
    refine ⟨fun _ h => h, fun _ _ h => h, fun _ k m _ hm => ?_⟩
    by_cases hk : k = i
    · simp [hk] at hm
    · simpa [hk] using hm

theorem moveAck_meek (i j : Nat) (s : ViewInfo) : Meekly cfg id (moveAck cfg id i j) s := by
  refine .get_bind ?_
  cases (s.vacks i).vacks j with
  | none => exact .pure (.refl s)
  | some ack =>
    refine .when (.refl s) fun _ => .bind meek_composes (onNv_meek _ _ s)
      fun added t _ => .when (.refl t) fun _ => .modify ?_
    exact ⟨fun _ h => h, fun _ _ h => h, fun _ _ _ _ h => h⟩

theorem moveAcks_meek (j : Nat) (is : List Nat) (s : ViewInfo) :
    Meekly cfg id (each (fun i => moveAck cfg id i j) is) s :=
  .each meek_composes (.refl s) (fun i t _ => moveAck_meek i j t) is

theorem startNewView_meek (s : ViewInfo) : Meekly cfg id (startNewViewIn cfg id) s := by
  refine .get_bind (.assert_bind (.refl s) fun _ => .bind meek_composes ?_
    fun _ r _ => .bind meek_composes (onNv_meek id _ r) fun _ t _ => ?_)
  · exact .when (.refl s) fun _ => .modify ⟨fun _ h => h, fun _ _ h => h, fun _ _ _ _ h => h⟩
  refine .bind meek_composes (.each meek_composes (.refl t) (fun i u _ => moveVC_meek _ _ i u) _)
    fun _ u _ => ?_
  exact .each meek_composes (.refl u) (fun i w _ =>
    .each meek_composes (.refl w) (fun j x _ => moveAck_meek i j x) _) _

theorem storeAck_meek (vca : ViewChangeAck) (vcv : Int) (s : ViewInfo) :
    Meek cfg id s (storeAck vca vcv s) := by
  unfold storeAck
  dsimp only
  split
  · exact ⟨fun _ h => h, fun _ _ h => h, fun _ _ _ _ h => h⟩
  · exact .refl s

theorem staleOne_meek (i : Nat) (s : ViewInfo) : Meekly cfg id (staleOne cfg id i) s := by
  refine .modify_bind meek_composes ⟨fun _ h => h, fun j a ha => ?_, fun _ k m hk hm => ?_⟩ ?_
  · by_cases hj : j = i
    · simp [hj] at ha
    · simpa [hj] using ha
  · by_cases hi : i = id
    · simpa [hi] using hm
    · by_cases hki : k = i
      · subst hki
        simp [hi] at hm
      · simpa [hi, hki] using hm
  · refine .bind meek_composes (onNv_meek i _ _)
      fun vc t _ => .modify ⟨fun _ h => h, fun _ _ h => h, fun _ k m hk hm => ?_⟩
    simp only at hm
    split at hm
    · simpa [hk] using hm
    · exact hm

/-- An acknowledgement is made and sent. -/
theorem Vouched.ack (h : Vouched cfg id got s) {a : ViewChangeAck} (ha : Genuine cfg id got a)
    (dest : Option Nat) (j : Nat) :
    Vouched cfg id got { s with myVacks := Function.update s.myVacks j (some a),
                                outs := s.outs ++ [.send dest (.ack a)] } := by
  refine ⟨fun b hb => ?_, fun k b hb => ?_, h.stored⟩
  · rw [acks, List.filterMap_append, List.mem_append] at hb
    rcases hb with hb | hb
    · exact h.sent b hb
    · obtain rfl : b = a := by simpa [ackOf] using hb
      exact ha
  · by_cases hk : k = j
    · subst hk
      simp only [Function.update_self, Option.some.injEq] at hb
      exact hb ▸ ha
    · simp only [Function.update_of_ne hk] at hb
      exact h.mine k b hb

/-- One acknowledgement of `view_change` at a backup; `F` are the stored view-changes. -/
theorem ackOther_vouched {F : Nat → Option ViewChange} (vc : ViewChange) {i : Nat} {v : Int}
    (hF : cfg.staticLog = true → i ≠ id → i ≠ cfg.primary v → ∀ m, F i = some m → m.v ≠ v) :
    Holds (fun s => Vouched cfg id got s ∧ s.v = v ∧ s.lastVcs = F)
      (Vouched cfg id got) (ackOther cfg id vc i) := by
  rintro s ⟨h, hv, hvcs⟩
  refine Prog.Reaches.get_bind ?_
  cases hs : s.lastVcs i with
  | none => exact Prog.Reaches.pure ⟨h, hv, hvcs⟩
  | some lvc =>
    refine Prog.Reaches.when (fun hc => ?_) fun _ => ⟨h, hv, hvcs⟩
    obtain ⟨⟨hlv, hi⟩, hp⟩ : (lvc.v = s.v ∧ i ≠ id) ∧ i ≠ cfg.primary s.v := by simpa using hc
    have hheap : cfg.staticLog = false := by
      by_contra hstat
      exact hF (by simpa using hstat) hi (hv ▸ hp) lvc (hvcs ▸ hs) (hlv.trans hv)
    obtain ⟨hid, hgot⟩ := h.stored hheap i lvc hi hs
    have hg : Genuine cfg id got ⟨s.v, id, i, cfg.vcDigest (if cfg.staticLog then vc else lvc)⟩ :=
      ⟨rfl, lvc, hgot, hid, hlv, by simp [hheap]⟩
    exact Prog.Reaches.modify_bind trivial (Prog.Reaches.modify trivial ⟨h.ack hg _ i, hv, hvcs⟩)

/-- **`view_change`** acknowledges what was received. -/
theorem viewChange_vouched (h : Vouched cfg id got s) (v le : Int) (word : Nat → BitVec 64)
    (entry : Nat → ReqInfo) (digest : Int → Option Digest)
    (hok : acksRight cfg id s (.viewChange v le word entry digest) = true) :
    Prog.Ensures (viewChangeIn cfg id v le word entry digest)
      s (fun _ t => Vouched cfg id got t) (Vouched cfg id got) := by
  have hold : ∀ {i m}, (discardOld { s with v }).lastVcs i = some m →
    s.lastVcs i = some m := fun hm =>
    (Option.filter_eq_some_iff.1 hm).1
  have hdis : Meek cfg id s (discardOld { s with v }) :=
    ⟨fun _ h => h, fun j a ha => (by cases ha), fun _ i m _ hm => hold hm⟩
  have h1 := h.meek hdis
  refine Prog.Reaches.modify_bind trivial
    (Prog.Reaches.get_bind (Prog.Reaches.ofOption_bind h1 fun vc hvc => ?_))
  have hvid : vc.id = id := (buildViewChange_header hvc).2
  refine Prog.Ensures.bind (persist_ensures id vc _) fun _ t ⟨hmeek, hv, hothers⟩ => ?_
  refine Prog.Reaches.modify_bind trivial (Prog.Reaches.modify_bind trivial ?_)
  -- the replica's own message is sent and stored
  set u : ViewInfo := { t with
    outs := t.outs ++ [.send none (.viewChange vc)]
    lastVcs := Function.update t.lastVcs id (some vc), lastViews :=
      Function.update t.lastViews id v } with hu
  have hent : Meek cfg id t u := by
    refine ⟨fun a ha => ?_, fun _ _ h => h, fun _ i m hi hm => by simpa [hu, hi] using hm⟩
    simpa [hu, acks, ackOf] using ha
  have h2 : Vouched cfg id got u := (h1.meek hmeek).meek hent
  refine Prog.Reaches.ite (fun _ => ?_) fun hp => ?_
  · exact (startNewView_meek u).imp (fun _ w hw => h2.meek hw) fun w hw => h2.meek hw
  · have hF : ∀ i ∈ List.range cfg.n, cfg.staticLog = true → i ≠ id → i ≠ cfg.primary v → ∀ m,
      u.lastVcs i = some m → m.v ≠ v := by
      intro i hi hstat hne hnp m hm hmv
      have hs : s.lastVcs i = some m := by
        simp only [hu, Function.update_of_ne hne, hothers i (hvid ▸ hne)] at hm
        exact hold hm
      simp only [acksRight, hstat, Bool.not_true, Bool.false_or,
        Bool.or_eq_true, beq_iff_eq, hp, false_or, List.all_eq_true] at hok
      have := hok i hi
      simp [hne, hnp, hs, hmv] at this
    have hloop : ∀ (is : List Nat) (w : ViewInfo), (∀ i ∈ is, i ∈ List.range cfg.n) →
        (Vouched cfg id got w ∧ w.v = v ∧ w.lastVcs = u.lastVcs) →
        Prog.Ensures (each (ackOther cfg id vc) is) w (fun _ x => Vouched cfg id got x)
          (Vouched cfg id got) := by
      intro is
      induction is with
      | nil => exact fun w _ hw => Prog.Reaches.pure hw.1
      | cons i is ih =>
        intro w his hw
        refine Prog.Ensures.bind (ackOther_vouched vc (hF i (his i (by simp))) w hw)
          fun _ x hx => ?_
        exact ih x (fun k hk => his k (by simp [hk])) hx
    exact hloop _ _ (fun _ hi => hi) ⟨h2, hv, rfl⟩

/-- **`add(View_change*)`** acknowledges what it received. -/
theorem addViewChange_vouched (h : Vouched cfg id got s) (vc : ViewChange)
    (verified digestOk : Bool) (hgot : verified = true → vc ∈ got)
    (hok : acksRight cfg id s (.addViewChange vc verified digestOk) = true) :
    Prog.Ensures (addViewChangeIn cfg id vc verified digestOk)
      s (fun _ t => Vouched cfg id got t) (Vouched cfg id got) := by
  refine Prog.Reaches.get_bind (Prog.Reaches.ite (fun _ => Prog.Reaches.pure h)
    fun hge => Prog.Reaches.ite (fun _ => ?_) fun hnv => ?_)
  · have hm : Meekly cfg id (matchViewChangeIn cfg id vc (toInt vc.v) verified digestOk) s := by
      refine .bind meek_composes (onNv_meek _ _ s)
        fun stored t _ => .bind meek_composes (.when (.refl t) fun _ => persist_meek vc t) ?_
      refine fun _ u _ => .get_bind
        (.bind meek_composes (.when (.refl u) fun _ => moveAcks_meek vc.id _ u) fun _ w _ => ?_)
      refine .modify_bind meek_composes ?_ (.pure (.refl _))
      split
      · exact ⟨fun _ h => h, fun _ _ h => h, fun _ _ _ _ h => h⟩
      · exact .refl w
    exact hm.imp (fun _ t ht => h.meek ht) fun t ht => h.meek ht
  · refine Prog.Reaches.assert_bind h fun _ => Prog.Reaches.ite (fun hnew => ?_)
      fun _ => Prog.Reaches.pure h
    obtain ⟨hlv, hver⟩ : s.lastViews vc.id < toInt vc.v ∧ verified = true := by simpa using hnew
    refine Prog.Ensures.bind (persist_ensures id vc _) fun _ t ⟨hmeek, hv, _⟩ => ?_
    have h1 : Vouched cfg id got { t with
        lastVcs := Function.update t.lastVcs vc.id (some vc), lastViews :=
          Function.update t.lastViews vc.id (toInt vc.v) } := by
      have ht := h.meek hmeek
      refine ⟨ht.sent, ht.mine, fun hb i m hi hm => ?_⟩
      by_cases hk : i = vc.id
      · subst hk
        obtain rfl : vc = m := by simpa using hm
        exact ⟨rfl, hgot hver⟩
      · exact ht.stored hb i m hi (by simpa [hk] using hm)
    refine Prog.Ensures.bind (Q := fun _ t => Vouched cfg id got t) ?_
      fun _ t ht => Prog.Reaches.pure ht
    refine Prog.Reaches.modify_bind trivial
      (Prog.Reaches.get_bind (Prog.Reaches.when (fun hc => ?_) fun _ => h1))
    obtain ⟨⟨hid, hvid⟩, hcur⟩ : (id ≠ cfg.primary t.v ∧ vc.id ≠ cfg.primary t.v) ∧
      toInt vc.v = t.v := by simpa using hc
    rw [hv] at hid hvid hcur
    have hvv : vc.v = s.v := by
      have hnv' : (s.lastNvs (cfg.primary s.v)).v ≠ s.v := by rw [← hcur]; exact hnv
      simpa [acksRight, acknowledges, hver, hcur, hnv', hcur ▸ hlv, hid, hvid] using hok
    have hg : Genuine cfg id got ⟨t.v, id, vc.id, cfg.vcDigest vc⟩ :=
      ⟨rfl, vc, hgot hver, rfl, hvv.trans hv.symm, rfl⟩
    refine Prog.Reaches.assert_bind h1 fun _ =>
      Prog.Reaches.modify_bind trivial (Prog.Reaches.modify trivial ?_)
    exact h1.ack hg _ vc.id

/-- The other operations acknowledge nothing. -/
theorem viewProg_meek (op : ViewOp)
    (h1 : ∀ v le word entry digest, op ≠ .viewChange v le word entry digest)
    (h2 : ∀ vc verified digestOk, op ≠ .addViewChange vc verified digestOk) (s : ViewInfo) :
    Meekly cfg id (viewProg cfg id op) s := by
  have hmod : ∀ t u : ViewInfo, u.outs = t.outs → u.myVacks = t.myVacks →
    u.lastVcs = t.lastVcs → Meek cfg id t u :=
    fun t u ho hm hl =>
      ⟨fun a ha => by rwa [acks, ho] at ha, fun _ _ h => hm ▸ h, fun _ _ _ _ h => hl ▸ h⟩
  cases op with
  | addComplete pp =>
    exact .get_bind (.assert_bind (.refl s) fun _ =>
      .ofOption_bind (.refl s) fun _ _ => .assert_bind (.refl s) fun _ =>
      .modify (hmod _ _ rfl rfl rfl))
  | addIncomplete n d =>
    exact .get_bind (.ofOption_bind (.refl s) fun _ _ => .modify (hmod _ _ rfl rfl rfl))
  | viewChange v le word entry digest => exact absurd rfl (h1 v le word entry digest)
  | addViewChange vc verified digestOk => exact absurd rfl (h2 vc verified digestOk)
  | addNewView nv verified =>
    refine .get_bind (.when (.refl s) fun _ => .bind meek_composes (onNv_meek _ _ s)
      fun _ t _ => .when (.refl t) fun _ => ?_)
    exact .each meek_composes (.refl t) (fun i u _ => moveVC_meek _ _ i u) _
  | addAck vca verified =>
    refine .when (.refl s) fun _ => .assert_bind (.refl s)
      fun _ => .bind meek_composes ?_ fun _ t _ =>
      .when (.refl t) fun _ => .modify (storeAck_meek _ _ t)
    exact .get_bind (.ite (fun _ => onNv_meek _ _ s) fun _ => .pure (.refl s))
  | markStable ls =>
    exact .modify_bind meek_composes (hmod _ _ rfl rfl rfl) (.get_bind (onNv_meek _ _ _))
  | markStale => exact .each meek_composes (.refl s) (fun i t _ => staleOne_meek i t) _
  | addMissing pp digestOk => exact .get_bind (onNv_meek _ _ s)
  | addMissingPrepare p => exact .get_bind (onNv_meek _ _ s)
  | fetchRequest n =>
    exact .get_bind (.bind meek_composes (onNv_meek _ _ s) fun _ t _ => .pure (.refl t))
  | sendProofs n v dest =>
    refine .modify ?_
    cases s.oplog.fetch cfg.P.maxOut n with
    | none => exact .refl s
    | some ri =>
      refine ⟨fun a ha => ?_, fun _ _ h => h, fun _ _ _ _ h => h⟩
      rw [acks, List.filterMap_append, List.mem_append] at ha
      refine ha.resolve_right fun hc => ?_
      obtain ⟨o, ho, he⟩ := List.mem_filterMap.1 hc
      obtain ⟨x, -, rfl⟩ := List.mem_map.1 ho
      cases he

theorem viewProg_vouched (h : Vouched cfg id got s) (op : ViewOp)
    (hgot : ∀ vc digestOk, op = .addViewChange vc true digestOk → vc ∈ got)
    (hok : acksRight cfg id s op = true) : Vouched cfg id got ((viewProgIn cfg id op).after s) := by
  by_cases h1 : ∃ v le word entry digest, op = .viewChange v le word entry digest
  · obtain ⟨v, le, word, entry, digest, rfl⟩ := h1
    exact (viewChange_vouched h v le word entry digest hok).after
  by_cases h2 : ∃ vc verified digestOk, op = .addViewChange vc verified digestOk
  · obtain ⟨vc, verified, digestOk, rfl⟩ := h2
    have hg : verified = true → vc ∈ got := fun hv => hgot vc digestOk (by rw [hv])
    have hx : Prog.Ensures (viewProgIn cfg id (.addViewChange vc verified digestOk))
      s (fun _ t => Vouched cfg id got t) (Vouched cfg id got) :=
      Prog.Ensures.bind (addViewChange_vouched h vc verified digestOk hg hok)
        fun _ _ ht => Prog.Reaches.pure ht
    exact hx.after
  · push Not at h1 h2
    have hop : viewProgIn cfg id op = viewProg cfg id op := by
      cases op with
      | viewChange v le word entry digest => exact absurd rfl (h1 v le word entry digest)
      | addViewChange vc verified digestOk => exact absurd rfl (h2 vc verified digestOk)
      | _ => rfl
    rw [hop]
    exact ((viewProg_meek op h1 h2 s).imp (fun _ t ht => h.meek ht) fun t ht => h.meek ht).after

/-- **Acknowledgements are about what was received.** In a run of operations each of which
acknowledges what it received, every acknowledgement that is sent or kept has the digest of a
verified view-change, of its view and from its sender. -/
theorem run_acks_genuine {ops : List ViewOp} {σ : Vouching}
    (hok : Run.Meets (Vouching.step cfg id) (fun σ op => acksRight cfg id σ.s op = true)
      ⟨ViewInfo.new cfg, []⟩ ops)
    (hrun : Run.run (Vouching.step cfg id) ⟨ViewInfo.new cfg, []⟩ ops = some σ) :
    Vouched cfg id σ.got σ.s := by
  have hnew : Vouched cfg id [] (ViewInfo.new cfg) := ⟨nofun, nofun, nofun⟩
  refine Run.invariant (I := fun σ : Vouching => Vouched cfg id σ.got σ.s)
    (fun σ op τ hσ hop hs => ?_) hnew hok hrun
  cases hs
  cases op with
  | addViewChange vc verified digestOk =>
    cases verified with
    | true =>
      exact viewProg_vouched (hσ.more vc) _
        (fun m d he => by cases he; exact List.mem_cons_self) hop
    | false => exact viewProg_vouched hσ _ (fun m d he => by cases he) hop
  | _ => exact viewProg_vouched hσ _ (fun m d he => by cases he) hop

/-- The view-change of replica `i` for view 1. -/
def firstChange (i : Nat) : ViewChange := ⟨1, 0, i, [1], 1, 0, [0#64], []⟩

/-- The view-change of replica 2 for view 1 comes before replica 0 enters it. -/
def earlyChange : List ViewOp :=
  [.addViewChange (firstChange 2) true true, .viewChange 1 0 (fun _ => 0) (fun _ => ⟨0, 0, 0⟩)
    fun _ => some 1]

theorem run_acks_genuine_early : ∃ σ, Run.run (Vouching.step Replica.fourReplicas 0)
    ⟨ViewInfo.new Replica.fourReplicas, []⟩ earlyChange = some σ ∧
    σ.s.acks = [⟨1, 0, 2, Replica.fourReplicas.vcDigest (firstChange 2)⟩] ∧
      Vouched Replica.fourReplicas 0 σ.got σ.s := by
  obtain ⟨σ, hσ, h⟩ :=
    (Option.any_eq_true _ _).1 (show (Run.run (Vouching.step Replica.fourReplicas 0)
    ⟨ViewInfo.new Replica.fourReplicas, []⟩ earlyChange).any (fun σ =>
      decide (σ.s.acks = [⟨1, 0, 2, Replica.fourReplicas.vcDigest (firstChange 2)⟩])) =
        true by decide +kernel)
  exact ⟨σ, hσ, of_decide_eq_true h, run_acks_genuine (by decide +kernel) hσ⟩

/-- The static build. -/
def staticFour : Cfg := { Replica.fourReplicas with staticLog := true }

/-- In the static build replica 0 acknowledges the view-change of replica 2 with the digest of its
own one. -/
theorem early_change_misacknowledged :
    ∃ σ, Run.run (Vouching.step staticFour 0) ⟨ViewInfo.new staticFour, []⟩ earlyChange = some σ ∧
    ∃ a ∈ σ.s.acks, ¬ Genuine staticFour 0 σ.got a := by
  obtain ⟨σ, hσ, h⟩ := (Option.any_eq_true _ _).1
    (show (Run.run (Vouching.step staticFour 0) ⟨ViewInfo.new staticFour, []⟩ earlyChange).any
    (fun σ => decide (∃ a ∈ σ.s.acks, ¬ Genuine staticFour 0 σ.got a)) = true by decide +kernel)
  exact ⟨σ, hσ, of_decide_eq_true h⟩

/-- The view-change of replica `i` for view 2. -/
def secondChange (i : Nat) : ViewChange := { firstChange i with v := 2 }

/-- Replica 3 has the view-change of replica 0 for view 1 in `last_vcs`, the new-view message of
view 2, and then the view-changes of replicas 0 and 1 that it refers to. -/
def sharedBlock (cfg : Cfg) : List ViewOp :=
  let nv : NewView :=
    { NewView.new 2 with vcInfo := fun i => if i < 2 then cfg.vcDigest (secondChange i) else 0 }
  [.addViewChange (firstChange 0) true true, .addNewView nv true,
    .addViewChange (secondChange 0) true true,
    .addViewChange (secondChange 1) true true, .viewChange 2 0 (fun _ => 0) (fun _ => ⟨0, 0, 0⟩)
      fun _ => some 1]

/-- In the static build `last_vcs[0]` reads the view-change for view 2, and is acknowledged; in the
heap build it is discarded. -/
example : ((Run.run (Vouching.step staticFour 3) ⟨ViewInfo.new staticFour,
        []⟩ (sharedBlock staticFour)).any fun σ =>
      decide ((σ.s.acks.map (·.vcid)) = [0] ∧ ∀ a ∈ σ.s.acks, ¬ Genuine staticFour 3 σ.got a)) =
        true ∧
    ((Run.run (Vouching.step Replica.fourReplicas 3) ⟨ViewInfo.new Replica.fourReplicas,
          []⟩ (sharedBlock Replica.fourReplicas)).any fun σ =>
      σ.s.acks.isEmpty) = true := by decide +kernel

/-! ## The acknowledgements that a primary keeps -/

/-- The acknowledgement is kept under its view. -/
def Buffered (s : ViewInfo) (a : ViewChangeAck) : Prop :=
  (s.vacks a.id).v = a.v ∧ (s.vacks a.id).vacks a.vcid = some a

instance (s : ViewInfo) (a : ViewChangeAck) : Decidable (Buffered s a) :=
  inferInstanceAs (Decidable (_ ∧ _))

/-- The `NV_info` for the view of the acknowledgement holds its view-change, and if it has the right
digest, counts it. -/
def taken (cfg : Cfg) (s : ViewInfo) (a : ViewChangeAck) : Bool :=
  (s.lastNvs (cfg.primary a.v)).takes cfg a

section Buffers

variable (cfg id)

/-- The replica is the primary of view `w`, its view or a later one, and the `NV_info` for `w`
cannot use the acknowledgement yet. -/
def waits (s : ViewInfo) (a : ViewChangeAck) (w : Int) : Bool :=
  id == cfg.primary w && decide (s.v ≤ w) && (matchAck cfg id a w s).1 != some true

/-- A `View_info`, and the latest acknowledgement about each view-change and from each sender that
has to wait. -/
structure Pending where
  s : ViewInfo
  due : List ViewChangeAck

/-- An acknowledgement that has to wait replaces one from the same sender, about the same
view-change and for the same view; a recovery forgets them. -/
def dues (σ : Pending) : ViewOp → List ViewChangeAck
  | .addAck a true =>
    if waits cfg id σ.s a a.v then
      a :: σ.due.filter fun b => !decide (b.id = a.id ∧ b.vcid = a.vcid ∧ b.v = a.v) else σ.due
  | .markStale => []
  | _ => σ.due

/-- `view_change` is called for later views. -/
def forward (s : ViewInfo) : ViewOp → Bool
  | .viewChange v .. => decide (s.v < v)
  | _ => true

/-- An acknowledgement waits until it is given to the `NV_info` of its view, or the view is over. -/
def Pending.step (σ : Pending) (op : ViewOp) : Option Pending :=
  if forward σ.s op then
    match viewProg cfg id op σ.s with
    | (some _, t) =>
      some ⟨t, (dues cfg id σ op).filter fun b => decide (t.v ≤ b.v) &&
        (decide (Buffered t b) || !taken cfg t b)⟩
    | (none, _) => none
  else none

/-- An acknowledgement that has to wait, or that `add` takes for one, is for the current view. -/
def buffersRight (s : ViewInfo) : ViewOp → Bool
  | .addAck a true => !(waits cfg id s a a.v || waits cfg id s a (toInt a.v)) ||
      (a.v == s.v && toInt a.v == a.v)
  | _ => true

end Buffers

/-- What a run keeps: no tag is ahead of the view, and what waits is for the view, and kept. -/
structure Keeping (σ : Pending) : Prop where
  nonneg : 0 ≤ σ.s.v
  tags : ∀ i, (σ.s.vacks i).v ≤ σ.s.v
  now : ∀ b ∈ σ.due, b.v = σ.s.v
  held : ∀ b ∈ σ.due, Buffered σ.s b

section Frames

open Prog.Holds

variable {v : Int} {F : Nat → VCAInfo}

/-- The program leaves the buffers alone. -/
abbrev Aloof (v : Int) (F : Nat → VCAInfo) (x : Prog ViewInfo α) : Prop :=
  Holds (fun t => t.v = v ∧ t.vacks = F) (fun _ => True) x

theorem onNv_aloof (j : Nat) (op : NVEnv → Prog NVInfo α) : Aloof v F (onNv cfg id j op) :=
  fun _ hs =>
  Prog.Ensures.of_result (fun _ _ => hs) fun _ => trivial

theorem modify_aloof {g : ViewInfo → ViewInfo} (hv : ∀ s, (g s).v = s.v)
    (hg : ∀ s, (g s).vacks = s.vacks) : Aloof v F (modify g) :=
  .modify fun s hs => ⟨(hv s).trans hs.1, (hg s).trans hs.2⟩

theorem moveVC_aloof (j : Nat) (w : Int) (i : Nat) : Aloof v F (moveVC cfg id j w i) := by
  refine get_bind fun s => ?_
  cases s.lastVcs i with
  | none => exact .pure
  | some vc =>
    exact .when fun _ => .bind (onNv_aloof j _)
      fun _ => .when fun _ => modify_aloof (fun _ => rfl) fun _ => rfl

theorem matchAck_aloof (a : ViewChangeAck) (w : Int) : Aloof v F (matchAck cfg id a w) :=
  get_bind fun _ => .ite (fun _ => onNv_aloof _ _) fun _ => .pure

theorem storeViewChange_aloof (vc : ViewChange) (w : Int) :
    Aloof v F (storeViewChange cfg id vc w) := by
  refine modify_bind (fun _ h => h) (get_bind fun _ =>
    .when fun _ => assert_bind (fun _ _ => trivial) fun _ => ?_)
  exact modify_bind (fun _ h => h) (.modify fun _ h => h)

/-- The operations that do not touch the buffers. -/
theorem viewProg_aloof (op : ViewOp)
    (h1 : ∀ w le word entry digest, op ≠ .viewChange w le word entry digest)
    (h2 : ∀ vc verified digestOk, op ≠ .addViewChange vc verified digestOk)
    (h3 : ∀ a verified, op ≠ .addAck a verified) (h4 : op ≠ .markStale) :
    Aloof v F (viewProg cfg id op) := by
  cases op with
  | addComplete pp =>
    exact get_bind fun _ => assert_bind (fun _ _ => trivial)
      fun _ => ofOption_bind (fun _ _ => trivial) fun _ =>
      assert_bind (fun _ _ => trivial) fun _ => .modify fun _ h => h
  | addIncomplete n d =>
    exact get_bind fun _ => ofOption_bind (fun _ _ => trivial) fun _ => .modify fun _ h => h
  | viewChange w le word entry digest => exact absurd rfl (h1 w le word entry digest)
  | addViewChange vc verified digestOk => exact absurd rfl (h2 vc verified digestOk)
  | addNewView nv verified =>
    refine get_bind fun _ => .when fun _ => .bind (onNv_aloof _ _) fun _ => .when fun _ => ?_
    exact .each (fun i => moveVC_aloof _ _ i) _
  | addAck a verified => exact absurd rfl (h3 a verified)
  | markStable ls => exact modify_bind (fun _ h => h) (get_bind fun _ => onNv_aloof _ _)
  | markStale => exact absurd rfl h4
  | addMissing pp digestOk => exact get_bind fun _ => onNv_aloof _ _
  | addMissingPrepare p => exact get_bind fun _ => onNv_aloof _ _
  | fetchRequest n => exact get_bind fun _ => .bind (onNv_aloof _ _) fun _ => .pure
  | sendProofs n w dest =>
    refine .modify fun s hs => ?_
    cases s.oplog.fetch cfg.P.maxOut n with
    | none => exact hs
    | some ri => exact hs

/-- The program moves to no other view, and no tag ahead of the view. -/
abbrev Tagged (v : Int) (x : Prog ViewInfo α) : Prop :=
  Holds (fun t => t.v = v ∧ ∀ i, (t.vacks i).v ≤ v) (fun _ => True) x

theorem onNv_tagged (j : Nat) (op : NVEnv → Prog NVInfo α) : Tagged v (onNv cfg id j op) :=
  fun _ hs =>
  Prog.Ensures.of_result (fun _ _ => hs) fun _ => trivial

theorem moveVC_tagged (j : Nat) (w : Int) (i : Nat) : Tagged v (moveVC cfg id j w i) := fun s hs =>
  Reaches.mono (moveVC_aloof j w i s ⟨rfl, rfl⟩)
    fun _ t ht => ⟨ht.1.trans hs.1, by rw [ht.2]; exact hs.2⟩

theorem moveAck_tagged (i j : Nat) : Tagged v (moveAck cfg id i j) := by
  refine get_bind fun s => ?_
  cases (s.vacks i).vacks j with
  | none => exact .pure
  | some ack =>
    refine .when fun _ => .bind (onNv_tagged _ _)
      fun _ => .when fun _ => .modify fun t ht => ⟨ht.1, fun k => ?_⟩
    by_cases hk : k = i
    · simpa [hk] using ht.2 i
    · simpa [hk] using ht.2 k

theorem viewChange_tagged (h : ∀ i, (s.vacks i).v ≤ s.v) {w : Int} (hw : s.v ≤ w) (le : Int)
    (word : Nat → BitVec 64) (entry : Nat → ReqInfo) (digest : Int → Option Digest) :
    Prog.Ensures (viewChange cfg id w le word entry digest) s (fun _ t => t.v = w ∧ ∀ i,
        (t.vacks i).v ≤ w) fun _ => True := by
  have hold : (discardOld { s with v := w }).v = w ∧ ∀ i,
    ((discardOld { s with v := w }).vacks i).v ≤ w := by
    refine ⟨rfl, fun i => ?_⟩
    simp only [discardOld]
    split
    · exact le_rfl
    · exact (h i).trans hw
  have hrest : Tagged w (do
      let s ← get
      let vc ← ofOption (s.buildViewChange cfg id word entry le digest)
      out (.send none (.viewChange vc))
      modify fun s => { s with lastVcs := Function.update s.lastVcs id (some vc),
                               lastViews := Function.update s.lastViews id w }
      if cfg.primary w = id then
        startNewView cfg id else each (ackOther cfg id vc) (List.range cfg.n)) := by
    refine get_bind fun _ => ofOption_bind (fun _ _ => trivial)
      fun vc => modify_bind (fun _ h => h) (modify_bind (fun _ h => h) ?_)
    refine .ite (fun _ => ?_) fun _ => .each (fun i => ?_) _
    · refine get_bind fun _ => assert_bind (fun _ _ => trivial)
        fun _ => .bind (onNv_tagged _ _) fun _ => ?_
      exact .bind (.each (fun i => moveVC_tagged _ _ i) _)
        fun _ => .each (fun i => .each (fun j => moveAck_tagged i j) _) _
    · refine get_bind fun s => ?_
      cases s.lastVcs i with
      | none => exact .pure
      | some lvc => exact .when fun _ => modify_bind (fun _ h => h) (.modify fun _ h => h)
  exact Reaches.modify_bind trivial (hrest _ hold)

theorem markStale_tagged (hv : 0 ≤ v) : Tagged v (markStale cfg id) := by
  refine .each (fun i => ?_) _
  refine modify_bind (fun _ h => h) (.bind (onNv_tagged i _) fun vc => .modify fun t ht => ?_)
  refine ⟨ht.1, fun k => ?_⟩
  by_cases hk : k = i
  · simpa [hk, noAcks] using hv
  · simpa [hk] using ht.2 k

end Frames

/-- While acknowledgements are moved: what waits is kept, or was taken. -/
structure Moving (cfg : Cfg) (w : Int) (D : List ViewChangeAck) (t : ViewInfo) : Prop where
  v : t.v = w
  tags : ∀ i, (t.vacks i).v ≤ w
  held : ∀ b ∈ D, Buffered t b ∨ taken cfg t b = true

variable {w : Int} {D : List ViewChangeAck}

/-- **One acknowledgement is moved** to the `NV_info` of the view, whose primary the replica is. -/
theorem moveAck_moving (hp : cfg.primary w = id) (hD : ∀ b ∈ D, b.v = w) (i j : Nat) :
    Holds (Moving cfg w D) (fun _ => True) (moveAck cfg id i j) := by
  intro s hs
  refine Reaches.get_bind ?_
  cases hack : (s.vacks i).vacks j with
  | none => exact Reaches.pure hs
  | some ack =>
    refine Reaches.when (fun htag => ?_) fun _ => hs
    have hadd := NVInfo.addAck_takes (V := s.nvEnv cfg id) ack (s.lastNvs (cfg.primary s.v))
    have hon : Prog.Ensures (onNv cfg id (cfg.primary s.v) fun V => NVInfo.addAck V ack) s
        (fun added t => t.v = s.v ∧ t.vacks = s.vacks ∧
          (∀ b ∈ D, taken cfg s b = true → taken cfg t b = true) ∧
          (added = true → ack.v = w → taken cfg t ack = true)) fun _ => True := by
      refine Prog.Ensures.of_result (fun added ha => ?_) fun _ => trivial
      obtain ⟨hnew, hmono⟩ := hadd.result.1 added ha
      refine ⟨rfl, rfl, fun b hb hbt => ?_, fun hadded hv => ?_⟩
      · have hw : cfg.primary s.v = cfg.primary b.v := by rw [hD b hb, hs.v]
        rw [onNv_apply, taken, ← hw, put_lastNvs_self]
        rw [taken, ← hw] at hbt
        exact hmono b hbt
      · have hw : cfg.primary s.v = cfg.primary ack.v := by rw [hv, hs.v]
        rw [onNv_apply, taken, ← hw, put_lastNvs_self]
        exact hnew (by rw [hv]; exact hp) hadded
    refine Prog.Ensures.bind hon fun added t ⟨hv, hvacks, hmono, hnew⟩ => ?_
    have htags : ∀ k, (t.vacks k).v ≤ w := by rw [hvacks]; exact hs.tags
    have hheld : ∀ b ∈ D, Buffered t b ∨ taken cfg t b = true := fun b hb => (hs.held b hb).imp
      (fun h => by unfold Buffered; rw [hvacks]; exact h) (hmono b hb)
    refine Reaches.when (fun hadded =>
      Reaches.modify trivial ⟨hv.trans hs.v, fun k => ?_, fun b hb => ?_⟩)
      fun _ => ⟨hv.trans hs.v, htags, hheld⟩
    · by_cases hk : k = i
      · simpa [hk] using htags i
      · simpa [hk] using htags k
    · rcases hheld b hb with hbuf | htk
      · by_cases hk : b.id = i
        · by_cases hj : b.vcid = j
          · -- this is the acknowledgement that was moved
            obtain rfl : b = ack := by
              have h2 := hbuf.2
              rw [hk, hj, hvacks, hack] at h2
              exact (Option.some.inj h2).symm
            exact .inr (hnew hadded (hD b hb))
          · exact .inl (by simpa [Buffered, hk, hj] using hbuf)
        · exact .inl (by simpa [Buffered, hk] using hbuf)
      · exact .inr htk

/-- **`add(View_change*)`** moves the acknowledgements about the view-change that it stores. -/
theorem addViewChange_moving (hs : Moving cfg s.v D s) (hD : ∀ b ∈ D, b.v = s.v)
    (hbuf : ∀ b ∈ D, Buffered s b) (vc : ViewChange) (verified digestOk : Bool) :
    Prog.Ensures (addViewChange cfg id vc verified digestOk) s (fun _ t => Moving cfg s.v D t)
      fun _ => True := by
  have hsame : ∀ t : ViewInfo, t.v = s.v ∧ t.vacks = s.vacks → Moving cfg s.v D t :=
    fun t ⟨hv, hvacks⟩ =>
    ⟨hv, by rw [hvacks]; exact hs.tags, fun b hb =>
      .inl (by unfold Buffered; rw [hvacks]; exact hbuf b hb)⟩
  refine Reaches.get_bind (Reaches.ite (fun _ => Reaches.pure hs)
    fun _ => Reaches.ite (fun _ => ?_) fun _ => ?_)
  · refine Prog.Ensures.bind (onNv_aloof _ _ s ⟨rfl, rfl⟩) fun stored t ht => Reaches.get_bind ?_
    refine Prog.Ensures.bind (Q := fun _ u => Moving cfg s.v D u) (Reaches.when (fun hc => ?_)
      fun _ => hsame t ht) fun _ u hu => ?_
    · obtain ⟨⟨-, hid⟩, -⟩ : (stored = true ∧ id = cfg.primary t.v) ∧ toInt vc.v = t.v := by
        simpa using hc
      have hprim : cfg.primary s.v = id := by rw [← ht.1, hid]
      exact Holds.each (fun i => moveAck_moving hprim hD i vc.id) _ t (hsame t ht)
    · refine Reaches.modify_bind trivial (Reaches.pure ?_)
      split
      · exact ⟨hu.v, hu.tags, hu.held⟩
      · exact hu
  · refine Reaches.assert_bind trivial fun _ => Reaches.ite (fun _ => ?_) fun _ => Reaches.pure hs
    exact Prog.Ensures.bind (storeViewChange_aloof vc _ s ⟨rfl, rfl⟩)
      fun _ t ht => Reaches.pure (hsame t ht)

/-- **`add(View_change_ack*)`** keeps an acknowledgement for the current view beside the others. -/
theorem addAck_keeping {σ : Pending} (h : Keeping σ) (a : ViewChangeAck)
    (hok : buffersRight cfg id σ.s (.addAck a true) = true) :
    Prog.Ensures (addAck cfg id a true) σ.s
      (fun _ t => t.v = σ.s.v ∧ (∀ i, (t.vacks i).v ≤ σ.s.v) ∧
        ∀ b ∈ dues cfg id σ (.addAck a true), b.v = σ.s.v ∧ Buffered t b) fun _ => True := by
  set s := σ.s with hs
  have hcond : ∀ w, w = a.v ∨ w = toInt a.v → waits cfg id s a w = true →
    a.v = s.v ∧ toInt a.v = a.v := by
    intro w hw hwait
    have hor : (waits cfg id s a a.v || waits cfg id s a (toInt a.v)) = true := by
      rcases hw with rfl | rfl <;> simp [hwait]
    simpa [buffersRight, hor] using hok
  refine Reaches.when (fun _ => Reaches.assert_bind trivial fun _ => ?_) fun hf => by cases hf
  have hmatch : Prog.Ensures (matchAck cfg id a (toInt a.v)) s
      (fun added t => (t.v = s.v ∧ t.vacks = s.vacks) ∧
        (matchAck cfg id a (toInt a.v) s).1 = some added) fun _ => True :=
    Prog.Ensures.of_result (fun added ha =>
      ⟨(matchAck_aloof a _ s ⟨rfl, rfl⟩).result.1 added ha, ha⟩) fun _ => trivial
  refine Prog.Ensures.bind hmatch fun added t ⟨⟨hv, hvacks⟩, hres⟩ => ?_
  have hbuf : ∀ b ∈ σ.due, b.v = s.v ∧ Buffered t b := fun b hb =>
    ⟨h.now b hb, by unfold Buffered; rw [hvacks]; exact h.held b hb⟩
  have htags : ∀ i, (t.vacks i).v ≤ s.v := by rw [hvacks]; exact h.tags
  have hdues : ¬waits cfg id s a a.v = true → dues cfg id σ (.addAck a true) = σ.due :=
    fun hw => if_neg hw
  refine Reaches.when (fun hc => Reaches.modify trivial ?_) fun hc => ?_
  · obtain ⟨rfl, hid⟩ : added = false ∧ id = cfg.primary (toInt a.v) := by simpa using hc
    unfold storeAck
    dsimp only
    by_cases htag : (t.vacks a.id).v ≤ toInt a.v
    · rw [if_pos htag]
      have htags' : ∀ (F : Nat → Option ViewChangeAck) (i : Nat),
        (Function.update t.vacks a.id ⟨t.v, F⟩ i).v ≤ s.v := by
        intro F i
        by_cases hi : i = a.id
        · simp [hi, hv]
        · simpa [hi] using htags i
      refine ⟨hv, htags' _, ?_⟩
      by_cases hlow : toInt a.v < s.v
      · -- it is for an earlier view, so nothing of this sender waits
        rw [hdues fun hw => by obtain ⟨h1, h2⟩ := hcond _ (.inl rfl) hw; omega]
        refine fun b hb => ⟨(hbuf b hb).1, ?_⟩
        have hne : b.id ≠ a.id := by
          intro he
          obtain ⟨h1, h2, -⟩ := hbuf b hb
          rw [he] at h2
          omega
        simpa [Buffered, hne] using (hbuf b hb).2
      · have hwait : waits cfg id s a (toInt a.v) = true := by
          simp [waits, ← hid, hres, not_lt.1 hlow]
        obtain ⟨hav, hint⟩ := hcond _ (.inr rfl) hwait
        rw [hint] at hwait
        rw [dues, if_pos hwait]
        intro b hb
        rcases List.mem_cons.1 hb with rfl | hb
        · exact ⟨hav, by simp [Buffered, hv, hav]⟩
        · obtain ⟨hb, hdiff⟩ := List.mem_filter.1 hb
          obtain ⟨hbv, hbt⟩ := hbuf b hb
          refine ⟨hbv, ?_⟩
          by_cases hi : b.id = a.id
          · have hj : b.vcid ≠ a.vcid := by
              intro hj
              simp [hi, hj, hbv, hav] at hdiff
            have hcur : ¬(t.vacks a.id).v < toInt a.v := by
              rw [← hi, hbt.1]
              omega
            have hkept : (t.vacks a.id).vacks b.vcid = some b := hi ▸ hbt.2
            simp [Buffered, hi, hj, hv, hbv, hcur, hkept]
          · simpa [Buffered, hi] using hbt
    · rw [if_neg htag]
      rw [hdues fun hw => by obtain ⟨h1, h2⟩ := hcond _ (.inl rfl) hw; have := htags a.id; omega]
      exact ⟨hv, htags, hbuf⟩
  · rw [hdues fun hw => ?_]
    · exact ⟨hv, htags, hbuf⟩
    · obtain ⟨-, hint⟩ := hcond _ (.inl rfl) hw
      rw [hint] at hc hres
      obtain ⟨⟨hid, -⟩, hne⟩ : (id = cfg.primary a.v ∧ s.v ≤ a.v) ∧
        (matchAck cfg id a a.v s).1 ≠ some true := by simpa [waits] using hw
      cases added with
      | true => exact hne hres
      | false => simp [← hid] at hc

/-- What still waits after an operation is kept. -/
theorem keeping_filter {due : List ViewChangeAck} (h0 : 0 ≤ t.v) (htags : ∀ i, (t.vacks i).v ≤ t.v)
    (hD : ∀ b ∈ due, t.v ≤ b.v → b.v = t.v ∧ (Buffered t b ∨ taken cfg t b = true)) :
    Keeping ⟨t, due.filter fun b => decide (t.v ≤ b.v) &&
        (decide (Buffered t b) || !taken cfg t b)⟩ := by
  have hmem : ∀ b ∈ due.filter fun b => decide (t.v ≤ b.v) &&
    (decide (Buffered t b) || !taken cfg t b), b.v = t.v ∧ Buffered t b := by
    intro b hb
    obtain ⟨hb, hkeep⟩ := List.mem_filter.1 hb
    obtain ⟨hle, hk⟩ : t.v ≤ b.v ∧ (Buffered t b ∨ taken cfg t b = false) := by simpa using hkeep
    obtain ⟨hv, hbt⟩ := hD b hb hle
    refine ⟨hv, hk.elim id fun hn => hbt.resolve_right ?_⟩
    rw [hn]
    exact Bool.false_ne_true
  exact ⟨h0, htags, fun b hb => (hmem b hb).1, fun b hb => (hmem b hb).2⟩

/-- What an operation leaves of the acknowledgements that wait, before those are dropped that no
longer do. -/
structure Leaves (cfg : Cfg) (due : List ViewChangeAck) (t : ViewInfo) : Prop where
  nonneg : 0 ≤ t.v
  tags : ∀ i, (t.vacks i).v ≤ t.v
  due : ∀ b ∈ due, t.v ≤ b.v → b.v = t.v ∧ (Buffered t b ∨ taken cfg t b = true)

theorem viewProg_leaves {σ : Pending} (h : Keeping σ) (op : ViewOp)
    (hok : buffersRight cfg id σ.s op = true) (hfwd : forward σ.s op = true) :
    Prog.Ensures (viewProg cfg id op) σ.s (fun _ t => Leaves cfg (dues cfg id σ op) t)
      fun _ => True := by
  have hsame : ∀ t : ViewInfo, t.v = σ.s.v ∧ t.vacks = σ.s.vacks → Leaves cfg σ.due t := by
    rintro t ⟨hv, hvacks⟩
    refine ⟨hv ▸ h.nonneg, by rw [hvacks, hv]; exact h.tags,
      fun b hb _ => ⟨(h.now b hb).trans hv.symm, .inl ?_⟩⟩
    unfold Buffered
    rw [hvacks]
    exact h.held b hb
  have haloof : (∀ v le word entry digest, op ≠ .viewChange v le word entry digest) →
      (∀ vc verified digestOk, op ≠ .addViewChange vc verified digestOk) →
        (∀ a verified, op ≠ .addAck a verified) →
      op ≠ .markStale → Prog.Ensures (viewProg cfg id op) σ.s (fun _ t => Leaves cfg σ.due t)
        fun _ => True :=
    fun h1 h2 h3 h4 => Reaches.mono (viewProg_aloof op h1 h2 h3 h4 σ.s ⟨rfl, rfl⟩)
      fun _ t ht => hsame t ht
  cases op with
  | viewChange v le word entry digest =>
    have hlt : σ.s.v < v := of_decide_eq_true hfwd
    refine Reaches.mono (viewChange_tagged h.tags hlt.le le word entry digest)
      fun _ t ⟨hv, htags⟩ => ?_
    refine ⟨by rw [hv]; exact h.nonneg.trans hlt.le, by rw [hv]; exact htags, fun b hb hle => ?_⟩
    -- the view of all that waits is over
    have := h.now b hb
    omega
  | addViewChange vc verified digestOk =>
    have hs : Moving cfg σ.s.v σ.due σ.s := ⟨rfl, h.tags, fun b hb => .inl (h.held b hb)⟩
    refine Prog.Ensures.bind (addViewChange_moving hs h.now h.held vc verified digestOk)
      fun _ t ht => Reaches.pure ?_
    exact ⟨ht.v ▸ h.nonneg, by rw [ht.v]; exact ht.tags,
      fun b hb _ => ⟨(h.now b hb).trans ht.v.symm, ht.held b hb⟩⟩
  | addAck a verified =>
    cases verified with
    | false => exact Reaches.pure (hsame _ ⟨rfl, rfl⟩)
    | true =>
      refine Reaches.mono (addAck_keeping h a hok) fun _ t ⟨hv, htags, hD⟩ => ?_
      exact ⟨hv ▸ h.nonneg, by rw [hv]; exact htags,
        fun b hb _ => ⟨(hD b hb).1.trans hv.symm, .inl (hD b hb).2⟩⟩
  | markStale =>
    refine Reaches.mono (markStale_tagged h.nonneg σ.s ⟨rfl, h.tags⟩) fun _ t ht => ?_
    exact ⟨ht.1 ▸ h.nonneg, by rw [ht.1]; exact ht.2, nofun⟩
  | _ => exact haloof nofun nofun nofun nofun

theorem step_keeping {σ τ : Pending} {op : ViewOp} (h : Keeping σ)
    (hok : buffersRight cfg id σ.s op = true) (hst : σ.step cfg id op = some τ) : Keeping τ := by
  unfold Pending.step at hst
  split at hst
  · rename_i hfwd
    have hx := (viewProg_leaves h op hok hfwd).result.1
    cases hr : viewProg cfg id op σ.s with
    | mk o t =>
      rw [hr] at hst hx
      cases o with
      | none => cases hst
      | some r =>
        cases hst
        have ht := hx r rfl
        exact keeping_filter ht.nonneg ht.tags ht.due
  · cases hst

/-- **Acknowledgements that wait are kept.** In a run in which an acknowledgement that has to wait,
or that the code takes for one, is for the current view, the latest one about each view-change and
from each sender is kept under its view until it is taken or the view is over. -/
theorem run_acks_buffered {ops : List ViewOp} {σ : Pending}
    (hok : Run.Meets (Pending.step cfg id) (fun σ op => buffersRight cfg id σ.s op = true)
      ⟨ViewInfo.new cfg, []⟩ ops)
    (hrun : Run.run (Pending.step cfg id) ⟨ViewInfo.new cfg, []⟩ ops = some σ) :
    ∀ a ∈ σ.due, Buffered σ.s a := by
  have hnew : Keeping ⟨ViewInfo.new cfg, []⟩ := ⟨le_rfl, fun _ => le_rfl, nofun, nofun⟩
  exact (Run.invariant (I := Keeping) (fun σ op τ hσ hop hs => step_keeping hσ hop hs)
    hnew hok hrun).held

/-- Two acknowledgements of replica 2 for view 1, about replicas 3 and 0. -/
def twoAcks : List ViewOp := [.addAck ⟨1, 2, 3, 7⟩ true, .addAck ⟨1, 2, 0, 8⟩ true]

/-- Replica 1 enters view 1, whose primary it is. -/
def enterOne : ViewOp := .viewChange 1 0 (fun _ => 0) (fun _ => ⟨0, 0, 0⟩) fun _ => some 1

/-- In view 1 both are kept. -/
theorem run_acks_buffered_two :
    ∃ σ, Run.run (Pending.step Replica.fourReplicas 1) ⟨ViewInfo.new Replica.fourReplicas, []⟩
      (enterOne :: twoAcks) = some σ ∧ σ.due = [⟨1, 2, 0, 8⟩, ⟨1, 2, 3, 7⟩] ∧ ∀ a ∈ σ.due,
        Buffered σ.s a := by
  obtain ⟨σ, hσ, h⟩ :=
    (Option.any_eq_true _ _).1 (show (Run.run (Pending.step Replica.fourReplicas 1)
    ⟨ViewInfo.new Replica.fourReplicas, []⟩ (enterOne :: twoAcks)).any
      (fun σ => decide (σ.due = [⟨1, 2, 0, 8⟩, ⟨1, 2, 3, 7⟩])) = true by decide +kernel)
  exact ⟨σ, hσ, of_decide_eq_true h, run_acks_buffered (by decide +kernel) hσ⟩

/-- In view 0 the second one discards the first, and is itself filed under view 0; neither is there
when the replica has entered view 1. -/
theorem early_acks_lost : ∃ σ τ, Run.run (Pending.step Replica.fourReplicas 1)
    ⟨ViewInfo.new Replica.fourReplicas, []⟩ twoAcks = some σ ∧
    (σ.s.vacks 2).v = 0 ∧ (σ.s.vacks 2).vacks 3 = none ∧
      σ.step Replica.fourReplicas 1 enterOne = some τ ∧
    τ.due = [⟨1, 2, 0, 8⟩, ⟨1, 2, 3, 7⟩] ∧ ∀ a ∈ τ.due, ¬Buffered τ.s a := by
  obtain ⟨σ, hσ, h⟩ :=
    (Option.any_eq_true _ _).1 (show (Run.run (Pending.step Replica.fourReplicas 1)
    ⟨ViewInfo.new Replica.fourReplicas, []⟩ twoAcks).any
      (fun σ => decide ((σ.s.vacks 2).v = 0 ∧ (σ.s.vacks 2).vacks 3 = none) &&
      (σ.step Replica.fourReplicas 1 enterOne).any fun τ =>
        decide (τ.due = [⟨1, 2, 0, 8⟩, ⟨1, 2, 3, 7⟩] ∧ ∀ a ∈ τ.due, ¬Buffered τ.s a)) =
          true by decide +kernel)
  obtain ⟨h1, h2⟩ := Bool.and_eq_true_iff.1 h
  obtain ⟨τ, hτ, h3⟩ := (Option.any_eq_true _ _).1 h2
  obtain ⟨ht, hn⟩ := of_decide_eq_true h1
  exact ⟨σ, τ, hσ, ht, hn, hτ, of_decide_eq_true h3⟩

end ViewInfo

end TinyBFT
