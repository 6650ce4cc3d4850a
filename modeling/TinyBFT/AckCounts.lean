import TinyBFT.Completion
import TinyBFT.Lib.Count

/-!
# Counting acknowledgements (`NV_info.cc:170-251`)

A view-change that a backup cannot authenticate is good enough if `f` others acknowledge it; the
primary includes a view-change in its new-view message with `2f - 1` acknowledgements.
`add(View_change_ack*)` serves both with one test, `!in_nv && …`. At the primary `in_nv` says that
the view-change is already in the message; but a backup has returned before unless the message names
the view-change, so `in_nv` holds and the backup counts nothing.

| here | there |
| --- | --- |
| `Poll`, `poll`  | the view-changes with their `ack_count` and `ack_reps`, and the digests of the message |
| `Acked`         | an `NV_info`, and who has acknowledged which view-change with the digest that it goes by |
| `ackers`        | the distinct replicas that have acknowledged a view-change |
| `CountsRight`   | what both sides should do with the acknowledgements |
-/

namespace TinyBFT

namespace NVInfo

open Prog (Ensures Reaches Holds get modify assert ofOption when each eachUntil)

/-- What the acknowledgements are counted for. -/
structure Poll where
  v : Int
  ballots : Nat → Option ViewChange × Nat × List Nat
  vcInfo : Option (Nat → Digest)

def poll (s : NVInfo) : Poll :=
  ⟨s.v, fun j => ((s.vcs j).vc, (s.vcs j).ackCount, (s.vcs j).ackReps), s.nv.map (·.vcInfo)⟩

/-- The digest of the view-change of `j` in the new-view message. -/
def named (cfg : Cfg) (s : NVInfo) (j : Nat) : Option Digest := s.nv.bind (·.viewChange cfg j)

/-- The acknowledgement has the digest that the view-change goes by. -/
def matching (V : NVEnv) (s : NVInfo) (a : ViewChangeAck) : Bool :=
  !s.isComplete && s.nv.any fun nv => ackDigest V s nv a.vcid == some a.vcd

/-! ## What counts nothing -/

variable {V : NVEnv} {cfg : Cfg} {id : Nat} {s t u : NVInfo} {p : Poll}

/-- The program counts no acknowledgement, stores no view-change and names none, also if it
stops. -/
abbrev Polled {α : Type} (p : Poll) (x : Prog NVInfo α) : Prop :=
  Holds (fun t => t.poll = p) (fun t => t.poll = p) x

section Frames

open Prog.Holds

variable (V p)

theorem makeNewView_polled : Polled p (makeNewView V) := by
  intro s hs
  refine Reaches.get_bind (Reaches.assert_bind hs
    fun _ => Reaches.ofOption_bind hs fun nv hnv => Reaches.modify_bind trivial ?_)
  have hnv' : NVInfo.poll { s with nv := some nv, nvSent := true } = p := by
    rw [← hs]
    simp only [poll, Poll.mk.injEq, true_and]
    exact (finished_vcInfo hnv).symm
  refine Reaches.ofOption_bind hnv' fun ks _ => Reaches.ofOption_bind hnv' fun ck _ => ?_
  exact Reaches.modify trivial hnv'

theorem finishBackup_polled : Polled p (finishBackup V) :=
  get_bind fun _ => ofOption_bind (fun _ h => h) fun _ => ofOption_bind (fun _ h => h) fun _ =>
    ofOption_bind (fun _ h => h) fun _ => assert_bind (fun _ h => h) fun _ =>
      ofOption_bind (fun _ h => h) fun _ => .modify fun _ h => h

variable {p} in
theorem finishIf_polled {fin : Prog NVInfo Unit} (h : Polled p fin) : Polled p (finishIf fin) :=
  get_bind fun _ => .when fun _ => modify_bind (fun _ h => h) h

theorem finish_polled : Polled p (finish V) :=
  finishIf_polled (get_bind fun _ => .ite (fun _ => makeNewView_polled V p)
    fun _ => finishBackup_polled V p)

theorem checkComp_polled (i : Int) (j : Nat) : Polled p (checkComp V i j) := by
  refine get_bind fun _ => assert_bind (fun _ h => h)
    fun _ => ofOption_bind (fun _ h => h) fun _ => ?_
  refine ofOption_bind (fun _ h => h) fun _ => .ite (fun _ => ?_) fun _ => finish_polled V p
  refine ofOption_bind (fun _ h => h) fun _ =>
    modify_bind (fun _ h => h) (.ite (fun _ => ?_) fun _ => .pure)
  exact modify_bind (fun _ h => h) (finish_polled V p)

theorem sumEntry_polled (vc : ViewChange) (i rv : Int) (rd : Digest) (j : Nat) :
    Polled p (sumEntry V vc i rv rd j) := by
  refine get_bind fun _ => ofOption_bind (fun _ h => h)
    fun _ => ofOption_bind (fun _ h => h) fun _ => ?_
  exact modify_bind (fun _ h => h) (.bind (checkComp_polled V p i j)
    fun _ => get_bind fun _ => .pure)

theorem addEntry_polled (vc : ViewChange) (i rv : Int) (rd : Digest) :
    Polled p (addEntry V vc i rv rd) := by
  refine get_bind fun _ => ofOption_bind (fun _ h => h)
    fun _ => ofOption_bind (fun _ h => h) fun r => ?_
  exact ofOption_bind (fun _ h => h) fun _ => modify_bind (fun _ h => h) (checkComp_polled V p i _)

theorem sumReq_polled (vc : ViewChange) (i : Int) : Polled p (sumReq V vc i) := by
  refine get_bind fun _ => ofOption_bind (fun _ h => h)
    fun _ => ofOption_bind (fun _ h => h) fun r => ?_
  refine ofOption_bind (fun _ h => h) fun q =>
    .bind (.eachUntil (sumEntry_polled V p vc i q.1 q.2) _) fun _ => ?_
  exact .ite (fun _ => .pure) fun _ =>
    .bind (.when fun _ => addEntry_polled V p vc i _ _) fun _ => .pure

theorem markSum_poll (j : Nat) (s : NVInfo) : (s.markSum j).poll = s.poll := by
  simp only [poll, markSum, Poll.mk.injEq, true_and, and_true]
  ext1 k
  by_cases hk : k = j
  · simp [hk]
  · simp [hk]

theorem summarizeReqs_polled (vc : ViewChange) : Polled p (summarizeReqs V vc) := by
  refine get_bind fun _ => assert_bind (fun _ h => h)
    fun _ => modify_bind (fun s h => (markSum_poll vc.id s).trans h) ?_
  exact .bind (.eachUntil (sumReq_polled V p vc) _) fun _ => .pure

theorem sumVC_polled (i : Nat) : Polled p (sumVC V i) :=
  get_bind fun _ => .ite (fun _ => ofOption_bind (fun _ h => h) fun vc =>
    .bind (summarizeReqs_polled V p vc) fun _ => get_bind fun _ => .pure) fun _ => .pure

theorem chooseCkpt_polled (index : Nat) : Polled p (chooseCkpt V index) := by
  refine get_bind fun _ => assert_bind (fun _ h => h)
    fun _ => ofOption_bind (fun _ h => h) fun cur => ?_
  refine assert_bind (fun _ h => h) fun _ => .ite (fun _ => ?_) fun _ => ?_
  · refine .bind ?_ fun _ => .ite (fun _ => .pure) fun _ => finishIf_polled (makeNewView_polled V p)
    exact assert_bind (fun _ h => h) fun _ =>
      modify_bind (fun _ h => h) (.eachUntil (sumVC_polled V p) _)
  · refine .bind ?_ fun _ => finishIf_polled (makeNewView_polled V p)
    refine get_bind fun _ => ofOption_bind (fun _ h => h) fun _ => .when fun _ => ?_
    exact ofOption_bind (fun _ h => h) fun _ => .modify fun _ h => h

theorem summarize_polled (vc : ViewChange) : Polled p (summarize V vc) := by
  refine get_bind fun s => assert_bind (fun _ h => h)
    fun _ => ofOption_bind (fun _ h => h) fun c => ?_
  refine .bind (.each (fun i => ?_) _) fun _ => .bind (.when fun _ => ?_) fun _ => ?_
  · refine get_bind fun _ => ofOption_bind (fun _ h => h)
      fun _ => ofOption_bind (fun _ h => h) fun _ => ?_
    exact modify_bind (fun _ h => h) (.when fun _ => chooseCkpt_polled V p i)
  · refine get_bind fun _ => ofOption_bind (fun _ h => h)
      fun _ => modify_bind (fun _ h => h) (.when fun _ => ?_)
    exact chooseCkpt_polled V p _
  · refine get_bind fun _ => .when fun _ => .bind (summarizeReqs_polled V p vc) fun _ => ?_
    exact .modify fun _ h => h

theorem checkReq_polled (i : Int) : Polled p (checkReq V i) := by
  refine get_bind fun _ => ofOption_bind (fun _ h => h) fun _ => .ite (fun _ => .pure) fun _ => ?_
  refine ofOption_bind (fun _ h => h) fun _ => ofOption_bind (fun _ h => h) fun _ => ?_
  refine ofOption_bind (fun _ h => h) fun _ =>
    modify_bind (fun _ h => h) (.ite (fun _ => ?_) fun _ => .pure)
  exact .bind (checkComp_polled V p i 0) fun _ => .pure

theorem checkMax_polled (d : Digest) (nv : NewView) : Polled p (checkMax V d nv) := by
  refine get_bind fun _ => .ite (fun _ => .pure)
    fun _ => modify_bind (fun _ h => h) (.ite (fun _ => ?_) fun _ => ?_)
  · refine modify_bind (fun _ h => h) (get_bind fun _ => ofOption_bind (fun _ h => h) fun _ => ?_)
    exact modify_bind (fun _ h => h) .pure
  · refine modify_bind (fun _ h => h) (get_bind fun _ => ?_)
    exact .bind (.eachUntil (checkReq_polled V p) _) fun _ => .pure

theorem checkNewView_polled : Polled p (checkNewView V) := by
  refine get_bind fun _ => assert_bind (fun _ h => h)
    fun _ => ofOption_bind (fun _ h => h) fun nv => ?_
  refine ofOption_bind (fun _ h => h) fun cid => ofOption_bind (fun _ h => h)
    fun vc => modify_bind (fun _ h => h) ?_
  refine .ite (fun _ => .pure) fun _ =>
    modify_bind (fun _ h => h) (ofOption_bind (fun _ h => h) fun c => ?_)
  cases c with
  | none => exact .pure
  | some d =>
    refine get_bind fun _ => ofOption_bind (fun _ h => h) fun _ => .ite (fun _ => .pure) fun _ => ?_
    exact modify_bind (fun _ h => h) (checkMax_polled V p d nv)

theorem fetchRequest_polled (n : Int) : Polled p (NVInfo.fetchRequest V n) := by
  refine get_bind fun _ => ofOption_bind (fun _ h => h)
    fun _ => assert_bind (fun _ h => h) fun _ => ?_
  refine ofOption_bind (fun _ h => h) fun _ => ofOption_bind (fun _ h => h)
    fun _ => .ite (fun _ => ?_) fun _ => .pure
  refine ofOption_bind (fun _ h => h) fun _ => ofOption_bind (fun _ h => h) fun _ => ?_
  refine ofOption_bind (fun _ h => h) fun _ => ofOption_bind (fun _ h => h) fun _ => ?_
  exact modify_bind (fun _ h => h) .pure

theorem addMissing_polled (pp : PrePrepareMsg) (digestOk : Bool) :
    Polled p (NVInfo.addMissing V pp digestOk) := by
  refine get_bind fun _ => ofOption_bind (fun _ h => h)
    fun _ => .when fun _ => ofOption_bind (fun _ h => h) fun r => ?_
  cases r.findIdx? fun cur => cur.d == pp.digest with
  | none => exact .pure
  | some j =>
    refine ofOption_bind (fun _ h => h) fun _ => .when fun _ => ?_
    exact modify_bind (fun _ h => h) (checkComp_polled V p _ j)

theorem addMissingPrepare_polled (m : Prepare) : Polled p (NVInfo.addMissingPrepare V m) := by
  refine get_bind fun _ => ofOption_bind (fun _ h => h)
    fun _ => .when fun _ => ofOption_bind (fun _ h => h) fun r => ?_
  cases r.findIdx? fun cur => cur.d == m.digest with
  | none => exact .pure
  | some j =>
    refine ofOption_bind (fun _ h => h) fun _ => .when
      fun _ => assert_bind (fun _ h => h) fun _ => .when fun _ => ?_
    exact modify_bind (fun _ h => h) (checkComp_polled V p _ j)

theorem markStable_polled (ls : Int) : Polled p (NVInfo.markStable V ls) :=
  get_bind fun _ => .when fun _ => modify_bind (fun _ h => h) (.modify fun _ h => h)

end Frames

/-! ## What counts -/

theorem vcOf_of_poll (h : t.poll = s.poll) : t.vcOf = s.vcOf :=
  funext fun j => congrArg (fun p : Poll => (p.ballots j).1) h

theorem ackCount_of_poll (h : t.poll = s.poll) (j : Nat) :
    (t.vcs j).ackCount = (s.vcs j).ackCount :=
  congrArg (fun p : Poll => (p.ballots j).2.1) h

theorem ackReps_of_poll (h : t.poll = s.poll) (j : Nat) : (t.vcs j).ackReps = (s.vcs j).ackReps :=
  congrArg (fun p : Poll => (p.ballots j).2.2) h

theorem v_of_poll (h : t.poll = s.poll) : t.v = s.v := congrArg Poll.v h

theorem inNewView_of_poll (h : t.poll = s.poll) : t.inNewView cfg = s.inNewView cfg :=
  inNewView_of_nv (congrArg Poll.vcInfo h)

/-- The state in which the primary summarizes the view-change `vc`. -/
def Includes (V : NVEnv) (vc : ViewChange) (s t : NVInfo) : Prop :=
  ∃ nv, (s.nv.bind (·.addViewChange V.cfg vc.id (V.cfg.vcDigest vc))) = some nv ∧
    t.poll = NVInfo.poll { s with nv := some nv }

theorem addToNewView_includes (vc : ViewChange) (s : NVInfo) :
    Ensures (addToNewView V vc) s (fun _ t => Includes V vc s t) fun _ => True := by
  refine Reaches.get_bind (Reaches.ofOption_bind trivial
    fun nv hnv => Reaches.modify_bind trivial ?_)
  exact (summarize_polled V _ vc _ rfl).imp (fun _ t ht => ⟨nv, hnv, ht⟩) fun _ _ => trivial

/-- `add` has stored the view-change, which the primary includes if it is its own. -/
structure Stored (V : NVEnv) (m : ViewChange) (verified : Bool) (s t : NVInfo) : Prop where
  none : s.vcOf m.id = none
  view : m.v = s.v
  verified : s.isPrimary V = true → verified = true
  message : s.isPrimary V = false → s.nv.isSome = true
  after : if s.isPrimary V = true ∧ m.id = V.id then Includes V m (s.store m) t
    else t.poll = (s.store m).poll

/-- **`add(View_change*)`** stores the view-change, or changes nothing. -/
theorem addViewChange_polls (m : ViewChange) (verified digestOk : Bool) (s : NVInfo) :
    Ensures (NVInfo.addViewChange V m verified digestOk)
      s (fun _ t => t.poll = s.poll ∨ Stored V m verified s t) fun _ => True := by
  refine Reaches.get_bind (Reaches.assert_bind trivial
    fun hm => Reaches.ite (fun _ => Reaches.pure (.inl rfl)) fun hnew => ?_)
  obtain ⟨hv, -⟩ : m.v = s.v ∧ m.id < V.cfg.n := by simpa using hm
  obtain ⟨hnone, -⟩ : s.vcOf m.id = none ∧ s.isComplete = false := by simpa using hnew
  refine Reaches.ofOption_bind trivial fun named hnamed =>
    Reaches.ite (fun _ => Reaches.pure (.inl rfl)) fun _ => ?_
  refine Reaches.ite (fun _ => Reaches.pure (.inl rfl)) fun hver => Reaches.modify_bind trivial ?_
  have hstored : ∀ t, (if s.isPrimary V = true ∧ m.id = V.id then Includes V m (s.store m) t
    else t.poll = (s.store m).poll) →
      Stored V m verified s t := by
    refine fun t ht => ⟨hnone, hv, fun hp => ?_, fun hp => ?_, ht⟩
    · simpa [hp] using hver
    · rw [hp] at hnamed
      obtain ⟨nv, hnv, -⟩ := Option.bind_eq_some_iff.1 hnamed
      exact Option.isSome_of_eq_some hnv
  refine Ensures.bind (Q := fun _ t => Stored V m verified s t) ?_
    fun _ t ht => Reaches.pure (.inr ht)
  refine Reaches.get_bind
    (Reaches.ite (fun hp => Reaches.when (fun ho => ?_) fun ho => ?_) fun hp => ?_)
  · have hown : s.isPrimary V = true ∧ m.id = V.id := ⟨hp, by simpa using ho⟩
    exact Reaches.mono (addToNewView_includes m _)
      fun _ t ht => hstored t (by rw [if_pos hown]; exact ht)
  · refine hstored _ ?_
    rw [if_neg fun hown => by simp [hown.2] at ho]
    rfl
  · have hback : ¬(s.isPrimary V = true ∧ m.id = V.id) := fun hown => hp hown.1
    refine Reaches.mono (Q := fun _ t => t.poll = (s.store m).poll) ?_
      fun _ t ht => hstored t (by rw [if_neg hback]; exact ht)
    refine Reaches.when (fun _ => ?_) fun _ => rfl
    exact Ensures.bind ((checkNewView_polled V _ _ rfl).imp (fun _ _ ht => ht) fun _ _ => trivial)
      fun _ _ ht => Reaches.pure ht

/-- What becomes of an acknowledgement in `t`. -/
inductive AckOutcome (V : NVEnv) (m : ViewChangeAck) (s t : NVInfo) : Prop
  | passed (same : t.poll = s.poll)
    (known : matching V s m = true → s.inNewView V.cfg m.vcid = true ∨
      m.id ∈ (s.vcs m.vcid).ackReps)
  | counted (primary : s.isPrimary V = true) (fits : matching V s m = true)
    (outside : s.inNewView V.cfg m.vcid = false)
    (fresh : m.id ∉ (s.vcs m.vcid).ackReps) (few : (s.vcs m.vcid).ackCount + 2 ≠ 2 * V.cfg.f)
      (poll : t.poll = (ackWith m s).poll)
  | included (vc : ViewChange) (primary : s.isPrimary V = true) (fits : matching V s m = true)
    (outside : s.inNewView V.cfg m.vcid = false) (fresh : m.id ∉ (s.vcs m.vcid).ackReps)
    (full : (s.vcs m.vcid).ackCount + 2 = 2 * V.cfg.f) (stored : s.vcOf m.vcid = some vc)
      (incl : Includes V vc (ackWith m s) t)

/-- **`add(View_change_ack*)`** counts at a primary only, and includes the view-change with `2f -
1`. -/
theorem addAck_outcome (m : ViewChangeAck) (s : NVInfo) :
    Ensures (NVInfo.addAck V m) s (fun _ t => m.v = s.v ∧ AckOutcome V m s t) fun _ => True := by
  refine Reaches.get_bind (Reaches.assert_bind trivial fun hv => ?_)
  have hv : m.v = s.v := by simpa using hv
  refine Reaches.ite (fun hc =>
    Reaches.pure ⟨hv, .passed rfl fun hm => by simp [matching, hc] at hm⟩) fun hc => ?_
  refine Reaches.ofOption_bind trivial fun nv hnv => ?_
  have hin : s.inNewView V.cfg m.vcid = (nv.viewChange V.cfg m.vcid).isSome := by
    simp [inNewView, hnv]
  have hc : s.isComplete = false := by simpa using hc
  have hmatch : matching V s m = (ackDigest V s nv m.vcid == some m.vcd) := by
    simp [matching, hc, hnv]
  cases hd : ackDigest V s nv m.vcid with
  | none => exact Reaches.pure ⟨hv, .passed rfl fun hm => by simp [hmatch, hd] at hm⟩
  | some d =>
    refine Ensures.bind (Reaches.when (fun hcount => ?_) fun hcount => ?_)
      fun _ _ ht => Reaches.pure ht
    · obtain ⟨⟨hout, heq⟩, hfresh⟩ : ((nv.viewChange V.cfg m.vcid).isSome = false ∧ m.vcd = d) ∧
        m.id ∉ (s.vcs m.vcid).ackReps := by
        simpa using hcount
      have hp : s.isPrimary V = true := by
        by_contra hp
        rw [ackDigest, if_neg hp] at hd
        rw [hd] at hout
        cases hout
      have hmt : matching V s m = true := by simp [hmatch, hd, heq]
      have hack : ((ackWith m s).vcs m.vcid).ackCount = (s.vcs m.vcid).ackCount + 1 := by
        simp [ackWith, VCInfo.ack]
      refine Reaches.modify_bind trivial
        (Reaches.get_bind (Reaches.when (fun hdone => ?_) fun hdone => ?_))
      · have hfull : ((ackWith m s).vcs m.vcid).ackCount + 1 = 2 * V.cfg.f :=
          beq_iff_eq.1 (Bool.and_eq_true_iff.1 hdone).1
        refine Reaches.ofOption_bind trivial fun vc hvc => ?_
        have hvc' : s.vcOf m.vcid = some vc := by simpa [ackWith, vcOf, VCInfo.ack] using hvc
        refine Reaches.mono (addToNewView_includes vc _) fun _ t ht => ⟨hv, ?_⟩
        exact .included vc hp hmt (hin.trans hout) hfresh (by omega) hvc' ht
      · refine ⟨hv, .counted hp hmt (hin.trans hout) hfresh (fun hfull => ?_) rfl⟩
        have h1 : ((ackWith m s).vcs m.vcid).ackCount + 1 = 2 * V.cfg.f := by omega
        have hsum : (((ackWith m s).vcs m.vcid).ackCount + 1 == 2 * V.cfg.f &&
          (ackWith m s).isPrimary V) = true :=
          Bool.and_eq_true_iff.2 ⟨beq_iff_eq.2 h1, hp⟩
        exact Bool.false_ne_true (hdone.symm.trans hsum)
    · refine ⟨hv, .passed rfl fun hm => ?_⟩
      have heq : m.vcd = d := by
        rw [hmatch, hd, beq_iff_eq, Option.some.injEq] at hm
        exact hm.symm
      simp only [heq, beq_self_eq_true, Bool.and_true, Bool.and_eq_false_imp,
        Bool.not_eq_true', Option.isSome_eq_false_iff,
        Option.isNone_iff_eq_none, Bool.not_eq_false', List.contains_eq_mem,
          decide_eq_true_eq] at hcount
      by_cases hns : nv.viewChange V.cfg m.vcid = none
      · exact .inr (hcount hns)
      · exact .inl (by rw [hin]; exact Option.isSome_iff_ne_none.2 hns)

theorem ackWith_vcOf (m : ViewChangeAck) : (ackWith m s).vcOf = s.vcOf := by
  ext1 j
  by_cases hj : j = m.vcid
  · simp [ackWith, vcOf, VCInfo.ack, hj]
  · simp [ackWith, vcOf, hj]

theorem ackWith_ackReps (m : ViewChangeAck) (j i : Nat) :
    i ∈ ((ackWith m s).vcs j).ackReps ↔ i ∈ (s.vcs j).ackReps ∨ j = m.vcid ∧ i = m.id := by
  by_cases hj : j = m.vcid
  · simp [ackWith, VCInfo.ack, hj, or_comm]
  · simp [ackWith, hj]

/-- The view-change that the acknowledgement is about is there, and with the right digest the
acknowledgement counts. -/
def takes (cfg : Cfg) (s : NVInfo) (a : ViewChangeAck) : Bool :=
  s.v == a.v && (s.vcOf a.vcid).any fun vc =>
    cfg.vcDigest vc != a.vcd || s.inNewView cfg a.vcid || (s.vcs a.vcid).ackReps.contains a.id

theorem takes_iff {a : ViewChangeAck} :
    s.takes cfg a = true ↔ s.v = a.v ∧ ∃ vc, s.vcOf a.vcid = some vc ∧
    (cfg.vcDigest vc = a.vcd → s.inNewView cfg a.vcid = true ∨ a.id ∈ (s.vcs a.vcid).ackReps) := by
  simp only [takes, Bool.and_eq_true, beq_iff_eq, Option.any_eq_true,
    Bool.or_eq_true, bne_iff_ne, ne_eq, List.contains_eq_mem,
    decide_eq_true_eq, or_assoc]
  exact and_congr_right fun _ => exists_congr fun vc => and_congr_right fun _ => by tauto

/-- What is taken stays so, with more acknowledgements and a message that names more. -/
theorem takes_mono {a : ViewChangeAck} (h : s.takes cfg a = true) (hv : t.v = s.v)
    (hF : t.vcOf = s.vcOf) (hin : s.inNewView cfg a.vcid = true → t.inNewView cfg a.vcid = true)
    (hr : a.id ∈ (s.vcs a.vcid).ackReps → a.id ∈ (t.vcs a.vcid).ackReps) :
    t.takes cfg a = true := by
  obtain ⟨h1, vc, h2, h3⟩ := takes_iff.1 h
  exact takes_iff.2 ⟨hv.trans h1, vc, by rw [hF]; exact h2, fun hd => (h3 hd).imp hin hr⟩

theorem Includes.inNewView {vc : ViewChange} (h : Includes V vc s t) {j : Nat}
    (hj : s.inNewView V.cfg j = true) :
    t.inNewView V.cfg j = true := by
  obtain ⟨nv, hnv, hp⟩ := h
  obtain ⟨m, hm, ha⟩ := Option.bind_eq_some_iff.1 hnv
  rw [inNewView_of_poll hp]
  simp only [NewView.addViewChange, Option.ite_none_right_eq_some] at ha
  obtain ⟨⟨-, hz⟩, heq⟩ := ha
  cases heq
  by_cases hjv : j = vc.id
  · simp [NVInfo.inNewView, hm, NewView.viewChange, hjv, hz] at hj
    exact absurd hj.2 (by decide)
  · simpa [NVInfo.inNewView, hm, NewView.viewChange, hjv] using hj

/-- What `add` returns `true` for is taken, at a primary. -/
theorem addAck_takes (m : ViewChangeAck) (s : NVInfo) :
    Ensures (NVInfo.addAck V m) s
      (fun b t => (V.cfg.primary m.v = V.id → b = true → t.takes V.cfg m = true) ∧
        ∀ a, s.takes V.cfg a = true → t.takes V.cfg a = true) fun _ => True := by
  have htrue : Ensures (NVInfo.addAck V m) s
      (fun b _ => b = true → s.isComplete = false ∧ ∃ nv d,
        s.nv = some nv ∧ ackDigest V s nv m.vcid = some d) fun _ => True := by
    refine Reaches.get_bind (Reaches.assert_bind trivial
      fun _ => Reaches.ite (fun _ => Reaches.pure nofun) fun hc => ?_)
    refine Reaches.ofOption_bind trivial fun nv hnv => ?_
    cases hd : ackDigest V s nv m.vcid with
    | none => exact Reaches.pure nofun
    | some d =>
      refine Ensures.bind (Q := fun _ _ => True) (Ensures.of_result (fun _ _ => trivial)
        fun _ => trivial) fun _ _ _ => ?_
      exact Reaches.pure fun _ => ⟨by simpa using hc, nv, d, hnv, hd⟩
  refine ((addAck_outcome m s).and htrue).imp (fun b t ⟨⟨hv, ht⟩, hb⟩ => ?_) fun _ _ => trivial
  -- the view-change is there, and the acknowledgement matches if it has its digest
  have hthere : V.cfg.primary m.v = V.id → b = true →
      ∃ vc, s.vcOf m.vcid = some vc ∧ (V.cfg.vcDigest vc = m.vcd → matching V s m = true) := by
    intro hp hbt
    have hprim : s.isPrimary V = true := isPrimary_iff.2 (hv ▸ hp)
    obtain ⟨hc, nv, d, hnv, hd⟩ := hb hbt
    have hd' := hd
    rw [ackDigest, if_pos hprim] at hd'
    obtain ⟨vc, hvc, hdig⟩ := Option.map_eq_some_iff.1 hd'
    exact ⟨vc, hvc, fun he => by simp [matching, hc, hnv, hd, ← hdig, he]⟩
  cases ht with
  | passed same known =>
    have hmono : ∀ a, s.takes V.cfg a = true → t.takes V.cfg a = true := fun a ha =>
      takes_mono ha (v_of_poll same) (vcOf_of_poll same) (by rw [inNewView_of_poll same]; exact id)
        (by rw [ackReps_of_poll same]; exact id)
    refine ⟨fun hp hbt => ?_, hmono⟩
    obtain ⟨vc, hvc, hm⟩ := hthere hp hbt
    exact hmono m (takes_iff.2 ⟨hv.symm, vc, hvc, fun hd => known (hm hd)⟩)
  | counted primary fits outside fresh few poll =>
    have hF : t.vcOf = s.vcOf := (vcOf_of_poll poll).trans (ackWith_vcOf m)
    have hin : t.inNewView V.cfg = s.inNewView V.cfg := by
      rw [inNewView_of_poll poll]
      rfl
    have hr : ∀ j, (t.vcs j).ackReps = ((ackWith m s).vcs j).ackReps := ackReps_of_poll poll
    refine ⟨fun hp hbt => ?_, fun a ha =>
      takes_mono ha (congrArg Poll.v poll) hF (by rw [hin]; exact id) fun h => ?_⟩
    · obtain ⟨vc, hvc, -⟩ := hthere hp hbt
      refine takes_iff.2 ⟨(congrArg Poll.v poll).trans hv.symm,
        vc, by rw [hF]; exact hvc, fun _ => .inr ?_⟩
      rw [hr, ackWith_ackReps]
      exact .inr ⟨rfl, rfl⟩
    · rw [hr, ackWith_ackReps]
      exact .inl h
  | included vc primary fits outside fresh full stored incl =>
    obtain ⟨nv, hnv, hpoll⟩ := id incl
    have hF : t.vcOf = s.vcOf := (vcOf_of_poll hpoll).trans (ackWith_vcOf m)
    have hr : ∀ j, (t.vcs j).ackReps = ((ackWith m s).vcs j).ackReps :=
      fun j => congrArg (fun p : Poll => (p.ballots j).2.2) hpoll
    refine ⟨fun hp hbt => ?_, fun a ha =>
      takes_mono ha (congrArg Poll.v hpoll) hF (fun h => incl.inNewView h) fun h => ?_⟩
    · obtain ⟨vc, hvc, -⟩ := hthere hp hbt
      refine takes_iff.2 ⟨(congrArg Poll.v hpoll).trans hv.symm,
        vc, by rw [hF]; exact hvc, fun _ => .inr ?_⟩
      rw [hr, ackWith_ackReps]
      exact .inr ⟨rfl, rfl⟩
    · rw [hr, ackWith_ackReps]
      exact .inl h

/-! ## Who has acknowledged what -/

/-- An `NV_info`, and the senders of the matching acknowledgements with the view-changes that they
are about. -/
structure Acked where
  σ : Traced
  acked : List (Nat × Nat)

/-- The distinct replicas that have acknowledged the view-change of `j`. -/
def ackers (cfg : Cfg) (acked : List (Nat × Nat)) (j : Nat) : Nat :=
  (List.range cfg.n).countP fun i => decide ((i, j) ∈ acked)

namespace Acked

def new : Acked := ⟨Traced.new, []⟩

/-- The acknowledgements after an operation; another view, and a recovery, start with none. -/
def noted (cfg : Cfg) (id : Nat) (a : NVStep) (s t : NVInfo) (old : List (Nat × Nat)) :
    List (Nat × Nat) :=
  match a.op with
  | .addAck m =>
    if matching ⟨cfg, id, a.prePrepare, a.prepare⟩ s m then (m.id, m.vcid) :: old else old
  | .markStale => if s.isComplete then old else []
  | _ => if t.v = s.v then old else []

def step (cfg : Cfg) (id : Nat) (α : Acked) (a : NVStep) : Option Acked :=
  (α.σ.step cfg id a).map fun τ => ⟨τ, noted cfg id a α.σ.s τ.s α.acked⟩

end Acked

/-- The counts for a view-change that the primary has not included. -/
structure Ballot (cfg : Cfg) (acked : List (Nat × Nat)) (s : NVInfo) (j : Nat) : Prop where
  count : (s.vcs j).ackCount = (s.vcs j).ackReps.length
  nodup : (s.vcs j).ackReps.Nodup
  mem : ∀ i, i ∈ (s.vcs j).ackReps ↔ (i, j) ∈ acked
  lt : ∀ i ∈ (s.vcs j).ackReps, i < cfg.n
  few : (s.vcs j).ackCount + 1 < 2 * cfg.f

/-- The view-change of `j` is in the message of the primary with enough acknowledgements, or they
are still counted. -/
def Standing (cfg : Cfg) (acked : List (Nat × Nat)) (s : NVInfo) (j : Nat) : Prop :=
  if s.inNewView cfg j = true then 2 * cfg.f ≤ ackers cfg acked j + 1 else Ballot cfg acked s j

/-- What a run keeps, as long as no backup gets an acknowledgement that matches. -/
structure Tallies (cfg : Cfg) (id : Nat) (s : NVInfo) (acked : List (Nat × Nat)) : Prop where
  zero : s.v = 0 → acked = [] ∧ ∀ j, s.poll.ballots j = (none, 0, [])
  backup : cfg.primary s.v ≠ id → acked = [] ∧ ∀ j, (s.vcs j).ackCount = 0
  primary : cfg.primary s.v = id → ∀ j, j < cfg.n → j ≠ id → Standing cfg acked s j
  own : cfg.primary s.v = id → s.inNewView cfg id = (s.vcOf id).isSome

variable {acked : List (Nat × Nat)} {j : Nat}

theorem Ballot.ackers_eq (h : Ballot cfg acked s j) : ackers cfg acked j = (s.vcs j).ackCount := by
  have hmem : ackers cfg acked j = (List.range cfg.n).countP
    fun i => decide (i ∈ (s.vcs j).ackReps) :=
    List.countP_congr fun i _ => by simp [h.mem]
  rw [hmem, Count.countP_mem h.nodup h.lt, h.count]

theorem Ballot.same (h : Ballot cfg acked s j) (hc : (t.vcs j).ackCount = (s.vcs j).ackCount)
    (hr : (t.vcs j).ackReps = (s.vcs j).ackReps) : Ballot cfg acked t j := by
  refine ⟨?_, ?_, ?_, ?_, ?_⟩
  · rw [hc, hr]; exact h.count
  · rw [hr]; exact h.nodup
  · rw [hr]; exact h.mem
  · rw [hr]; exact h.lt
  · rw [hc]; exact h.few

theorem Standing.same (h : Standing cfg acked s j)
    (hin : t.inNewView cfg j = true ↔ s.inNewView cfg j = true)
    (hc : (t.vcs j).ackCount = (s.vcs j).ackCount) (hr : (t.vcs j).ackReps = (s.vcs j).ackReps) :
    Standing cfg acked t j := by
  unfold Standing at h ⊢
  by_cases hs : s.inNewView cfg j = true
  · rw [if_pos hs] at h
    rw [if_pos (hin.2 hs)]
    exact h
  · rw [if_neg hs] at h
    rw [if_neg fun ht => hs (hin.1 ht)]
    exact h.same hc hr

theorem Tallies.of_poll (h : Tallies cfg id s acked) (hp : t.poll = s.poll) :
    Tallies cfg id t acked := by
  have hv := v_of_poll hp
  have hc := ackCount_of_poll hp
  have hr := ackReps_of_poll hp
  have hin : t.inNewView cfg = s.inNewView cfg := inNewView_of_poll hp
  refine ⟨fun hz => ?_, fun hb => ?_, fun hpr j hj hne => ?_, fun hpr => ?_⟩
  · rw [hp]
    exact h.zero (hv ▸ hz)
  · obtain ⟨h1, h2⟩ := h.backup (hv ▸ hb)
    exact ⟨h1, fun j => by rw [hc]; exact h2 j⟩
  · exact (h.primary (hv ▸ hpr) j hj hne).same (by rw [hin]) (hc j) (hr j)
  · rw [hin, vcOf_of_poll hp]
    exact h.own (hv ▸ hpr)

theorem tallies_primary (hp : cfg.primary s.v = id) (hz : s.v ≠ 0)
    (hst : ∀ j, j < cfg.n → j ≠ id → Standing cfg acked s j)
    (hown : s.inNewView cfg id = (s.vcOf id).isSome) : Tallies cfg id s acked :=
  ⟨fun h0 => absurd h0 hz, fun hb => absurd hp hb, fun _ => hst, fun _ => hown⟩

/-- Where there are two replicas, one of them may be faulty. -/
theorem f_pos {i j : Nat} (hi : i < cfg.n) (hj : j < cfg.n) (hne : j ≠ i) : 0 < cfg.f := by
  unfold Cfg.n at hi hj
  omega

/-- Nothing is stored, and the message of a primary is empty. -/
theorem tallies_fresh (hz : ∀ j, s.poll.ballots j = (none, 0, []))
    (hn : cfg.primary s.v = id → ∀ j, s.inNewView cfg j = false) :
    Tallies cfg id s [] := by
  have hvc : ∀ j, s.vcOf j = none := fun j => congrArg Prod.fst (hz j)
  have hc : ∀ j, (s.vcs j).ackCount = 0 := fun j => congrArg (fun b => b.2.1) (hz j)
  have hr : ∀ j, (s.vcs j).ackReps = [] := fun j => congrArg (fun b => b.2.2) (hz j)
  refine ⟨fun _ => ⟨rfl, hz⟩, fun _ => ⟨rfl, hc⟩, fun hp j hj hne => ?_, fun hp => ?_⟩
  · have hf : 0 < cfg.f := f_pos (hp ▸ cfg.primary_lt s.v) hj hne
    rw [Standing, if_neg (by rw [hn hp]; exact Bool.false_ne_true)]
    exact ⟨by rw [hc, hr]; rfl, by rw [hr]; exact List.nodup_nil,
      fun i => by simp [hr], fun i hi => by simp [hr] at hi,
      by rw [hc]; omega⟩
  · rw [hn hp, hvc]
    rfl

theorem store_ackCount (m : ViewChange) (j : Nat) :
    ((s.store m).vcs j).ackCount = (s.vcs j).ackCount := by
  by_cases hj : j = m.id
  · simp [store, hj]
  · simp [store, hj]

theorem store_ackReps (m : ViewChange) (j : Nat) :
    ((s.store m).vcs j).ackReps = (s.vcs j).ackReps := by
  by_cases hj : j = m.id
  · simp [store, hj]
  · simp [store, hj]

/-- A view-change that the primary does not include yet. -/
theorem Tallies.store (h : Tallies cfg id s acked) (m : ViewChange) (hz : s.v ≠ 0)
    (hm : ¬(cfg.primary s.v = id ∧ m.id = id)) :
    Tallies cfg id (s.store m) acked where
  zero h0 := absurd h0 hz
  backup hb := by
    obtain ⟨h1, h2⟩ := h.backup hb
    exact ⟨h1, fun j => by rw [store_ackCount]; exact h2 j⟩
  primary hp j hj hne :=
    (h.primary hp j hj hne).same Iff.rfl (store_ackCount m j) (store_ackReps m j)
  own hp := by
    have hne : id ≠ m.id := fun he => hm ⟨hp, he.symm⟩
    rw [store_vcOf, if_neg hne]
    exact h.own hp

/-- What the primary includes. -/
theorem Includes.spec {vc : ViewChange} (h : Includes V vc s t)
    (hd : (V.cfg.vcDigest vc).isZero = false) :
    t.v = s.v ∧ t.vcOf = s.vcOf ∧
      (∀ j, (t.vcs j).ackCount = (s.vcs j).ackCount ∧ (t.vcs j).ackReps = (s.vcs j).ackReps) ∧
      ∀ j, t.inNewView V.cfg j = true ↔ s.inNewView V.cfg j = true ∨ j = vc.id := by
  obtain ⟨nv, hnv, hp⟩ := h
  obtain ⟨m, hm, ha⟩ := Option.bind_eq_some_iff.1 hnv
  refine ⟨congrArg Poll.v hp,
    ?_, fun j => ⟨ackCount_of_poll hp j, ackReps_of_poll hp j⟩, fun j => ?_⟩
  · rw [vcOf_of_poll hp]
    rfl
  · rw [inNewView_of_poll hp]
    exact (inNewView_add hm ha hd).2 j

/-- The primary includes its own view-change. -/
theorem Tallies.includeOwn (h : Tallies V.cfg V.id s acked) {m : ViewChange} (hm : m.id = V.id)
    (hp : V.cfg.primary s.v = V.id) (hz : s.v ≠ 0) (hd : (V.cfg.vcDigest m).isZero = false)
    (ht : Includes V m (s.store m) t) : Tallies V.cfg V.id t acked := by
  obtain ⟨hv, hF, ha, hin⟩ := ht.spec hd
  have hv : t.v = s.v := hv
  refine tallies_primary (hv ▸ hp) (hv ▸ hz) (fun j hj hne => ?_) ?_
  · refine (h.primary hp j hj hne).same ?_ ((ha j).1.trans (store_ackCount m j))
      ((ha j).2.trans (store_ackReps m j))
    rw [hin]
    exact or_iff_left fun he => hne (he.trans hm)
  · rw [(hin V.id).2 (.inr hm.symm), hF, store_vcOf, if_pos hm.symm]
    rfl

/-! ## One more acknowledgement -/

theorem ackers_cons (i k : Nat) : ackers cfg acked j ≤ ackers cfg ((i, k) :: acked) j :=
  List.countP_mono_left fun x _ hx => by
    simp only [decide_eq_true_eq] at hx ⊢
    exact List.mem_cons_of_mem _ hx

/-- The counts of a view-change with one more acknowledgement of it. -/
theorem Ballot.more {m : ViewChangeAck} (h : Ballot cfg acked s m.vcid) (hlt : m.id < cfg.n)
    (hnew : m.id ∉ (s.vcs m.vcid).ackReps) (hfew : (s.vcs m.vcid).ackCount + 2 ≠ 2 * cfg.f) :
    Ballot cfg ((m.id, m.vcid) :: acked) (ackWith m s) m.vcid := by
  have hc : ((ackWith m s).vcs m.vcid).ackCount = (s.vcs m.vcid).ackCount + 1 := by
    simp [ackWith, VCInfo.ack]
  have hr : ((ackWith m s).vcs m.vcid).ackReps = m.id :: (s.vcs m.vcid).ackReps := by
    simp [ackWith, VCInfo.ack]
  have := h.few
  refine ⟨?_, ?_, fun i => ?_, fun i hi => ?_, by omega⟩
  · rw [hc, hr, h.count, List.length_cons]
  · rw [hr]
    exact List.nodup_cons.2 ⟨hnew, h.nodup⟩
  · rw [hr, List.mem_cons, List.mem_cons, h.mem, Prod.mk.injEq]
    exact or_congr_left (by simp)
  · rw [hr] at hi
    rcases List.mem_cons.1 hi with rfl | hi
    · exact hlt
    · exact h.lt i hi

/-- An acknowledgement that is not counted, or is about another view-change. -/
theorem Standing.cons {i k : Nat} (h : Standing cfg acked s j)
    (hin : t.inNewView cfg j = true ↔ s.inNewView cfg j = true)
    (hc : (t.vcs j).ackCount = (s.vcs j).ackCount) (hr : (t.vcs j).ackReps = (s.vcs j).ackReps)
    (hold : j = k → s.inNewView cfg k = true ∨ i ∈ (s.vcs k).ackReps) :
    Standing cfg ((i, k) :: acked) t j := by
  refine Standing.same (s := s) ?_ hin hc hr
  unfold Standing at h ⊢
  by_cases hs : s.inNewView cfg j = true
  · rw [if_pos hs] at h ⊢
    have : ackers cfg acked j ≤ ackers cfg ((i, k) :: acked) j := ackers_cons i k
    omega
  · rw [if_neg hs] at h ⊢
    refine ⟨h.count, h.nodup, fun x => ?_, h.lt, h.few⟩
    rw [h.mem, List.mem_cons]
    refine ⟨.inr, fun hx => hx.elim (fun he => ?_) id⟩
    obtain ⟨rfl, rfl⟩ := Prod.mk.inj he
    exact (h.mem x).1 ((hold rfl).resolve_left hs)

/-- With one more acknowledgement of it, a view-change has one more acker. -/
theorem Ballot.ackers_more {i : Nat} (h : Ballot cfg acked s j) (hlt : i < cfg.n)
    (hnew : i ∉ (s.vcs j).ackReps) :
    ackers cfg ((i, j) :: acked) j = (s.vcs j).ackCount + 1 := by
  rw [← h.ackers_eq, ackers, ackers, Count.countP_insert List.nodup_range (List.mem_range.2 hlt)
    (P := fun x => decide ((x, j) ∈ acked)) (decide_eq_false fun hx => hnew ((h.mem i).2 hx))
      fun x hx => by simp [hx]]
  simp

/-! ## The operations -/

theorem addViewChange_tallies (h : Tallies V.cfg V.id s acked) (m : ViewChange)
    (verified digestOk : Bool) (hpos : m.v = s.v → s.v ≠ 0)
    (hd : V.cfg.primary s.v = V.id → (V.cfg.vcDigest m).isZero = false) :
    Ensures (NVInfo.addViewChange V m verified digestOk)
      s (fun _ t => Tallies V.cfg V.id t acked ∧ t.v = s.v) fun _ => True := by
  refine Reaches.mono (addViewChange_polls m verified digestOk s) fun _ t ht => ?_
  rcases ht with hp | hst
  · exact ⟨h.of_poll hp, v_of_poll hp⟩
  · have hz : s.v ≠ 0 := hpos hst.view
    have ht := hst.after
    by_cases hown : s.isPrimary V = true ∧ m.id = V.id
    · rw [if_pos hown] at ht
      have hp := isPrimary_iff.1 hown.1
      exact ⟨h.includeOwn hown.2 hp hz (hd hp) ht, (ht.spec (hd hp)).1⟩
    · rw [if_neg hown] at ht
      exact ⟨(h.store m hz fun hc => hown ⟨isPrimary_iff.2 hc.1, hc.2⟩).of_poll ht,
        congrArg Poll.v ht⟩

/-- The counts of the other view-changes. -/
theorem ackWith_other {m : ViewChangeAck} (hj : j ≠ m.vcid) :
    (ackWith m s).vcs j = s.vcs j := by simp [ackWith, hj]

theorem addAck_tallies (h : Tallies V.cfg V.id s acked) (hF : Filed V.cfg s.vcOf)
    {m : ViewChangeAck} (hw : m.wellFormed V.cfg = true)
    (hsafe : V.cfg.primary s.v ≠ V.id → matching V s m = false) :
    Ensures (NVInfo.addAck V m) s
      (fun _ t => Tallies V.cfg V.id t (if matching V s m = true then (m.id, m.vcid) :: acked
            else acked)) fun _ => True := by
  obtain ⟨hid, -, -, hpos, hvcid⟩ := of_decide_eq_true hw
  refine Reaches.mono (addAck_outcome m s) fun _ t ⟨hv, ht⟩ => ?_
  have hz : s.v ≠ 0 := by omega
  -- at the primary a view-change that is not included is another replica's
  have hother : V.cfg.primary s.v = V.id → s.inNewView V.cfg m.vcid = false →
    (s.vcOf m.vcid).isSome = true → m.vcid ≠ V.id := by
    rintro hp hout hst heq
    rw [heq] at hout hst
    rw [h.own hp, hst] at hout
    cases hout
  cases ht with
  | passed same known =>
    have hv' := v_of_poll same
    by_cases hm : matching V s m = true
    · rw [if_pos hm]
      have hp : V.cfg.primary s.v = V.id := by
        by_contra hne
        rw [hsafe hne] at hm
        cases hm
      refine tallies_primary (hv' ▸ hp) (hv' ▸ hz) (fun j hj hne => ?_) ?_
      · exact (h.primary hp j hj hne).cons (by rw [inNewView_of_poll same])
          (ackCount_of_poll same j) (ackReps_of_poll same j)
          fun hjk => known hm
      · rw [inNewView_of_poll same, vcOf_of_poll same]
        exact h.own hp
    · rw [if_neg hm]
      exact h.of_poll same
  | counted primary fits outside fresh few poll =>
    rw [if_pos fits]
    have hp := isPrimary_iff.1 primary
    have hv' : t.v = s.v := congrArg Poll.v poll
    have hin : t.inNewView V.cfg = s.inNewView V.cfg := by
      rw [inNewView_of_poll poll]
      rfl
    refine tallies_primary (hv' ▸ hp) (hv' ▸ hz) (fun j hj hne => ?_) ?_
    · by_cases hjk : j = m.vcid
      · subst hjk
        have hold := h.primary hp _ hj hne
        rw [Standing, if_neg (by rw [outside]; exact Bool.false_ne_true)] at hold
        rw [Standing, if_neg (by rw [hin, outside]; exact Bool.false_ne_true)]
        exact (hold.more hid fresh few).same (ackCount_of_poll poll _) (ackReps_of_poll poll _)
      · refine (h.primary hp j hj hne).cons (by rw [hin]) ?_ ?_ fun he => absurd he hjk
        · rw [ackCount_of_poll poll, ackWith_other hjk]
        · rw [ackReps_of_poll poll, ackWith_other hjk]
    · rw [hin, vcOf_of_poll poll, ackWith_vcOf]
      exact h.own hp
  | included vc primary fits outside fresh full stored incl =>
    rw [if_pos fits]
    have hp := isPrimary_iff.1 primary
    obtain ⟨hvc, -, hd⟩ := hF _ _ stored
    obtain ⟨hv', hF', ha, hin⟩ := incl.spec hd
    have hv' : t.v = s.v := hv'
    have hin : ∀ j, t.inNewView V.cfg j = true ↔ s.inNewView V.cfg j = true ∨ j = m.vcid := by
      rw [← hvc]
      exact hin
    refine tallies_primary (hv' ▸ hp) (hv' ▸ hz) (fun j hj hne => ?_) ?_
    · by_cases hjk : j = m.vcid
      · subst hjk
        have hold := h.primary hp _ hj hne
        rw [Standing, if_neg (by rw [outside]; exact Bool.false_ne_true)] at hold
        rw [Standing, if_pos ((hin _).2 (.inr rfl)), hold.ackers_more hid fresh]
        omega
      · refine (h.primary hp j hj hne).cons ?_ ?_ ?_ fun he => absurd he hjk
        · rw [hin]
          exact or_iff_left hjk
        · rw [(ha j).1, ackWith_other hjk]
        · rw [(ha j).2, ackWith_other hjk]
    · have hne : V.id ≠ m.vcid := (hother hp outside (by rw [stored]; rfl)).symm
      have hsame : t.inNewView V.cfg V.id = s.inNewView V.cfg V.id :=
        Bool.eq_iff_iff.2 ((hin V.id).trans (or_iff_left hne))
      rw [hsame, hF', ackWith_vcOf]
      exact h.own hp

/-- A message for a later view: nothing is left of the one before. -/
theorem addNewView_fresh (hz : s.v = 0 → ∀ j, s.poll.ballots j = (none, 0, [])) (m : NewView) :
    Ensures (NVInfo.addNewView V m) s
      (fun _ t => t = s ∧ m.v ≤ s.v ∨ s.v < m.v ∧ t.v = m.v ∧ t.nv = some m ∧ ∀ j,
          t.poll.ballots j = (none, 0, []))
      fun _ => True := by
  refine Reaches.get_bind (Reaches.ite (fun hle => Reaches.pure (.inl ⟨rfl, hle⟩)) fun hlt => ?_)
  refine Ensures.bind (Q := fun _ t => ∀ j, t.poll.ballots j = (none, 0, []))
    (Reaches.when (fun _ => Reaches.modify trivial fun _ => rfl) fun hv => hz (by simpa using hv))
      fun _ t ht => ?_
  exact Reaches.modify_bind trivial (Reaches.pure (.inr ⟨by omega, rfl, rfl, ht⟩))

theorem addNewView_tallies (h : Tallies V.cfg V.id s acked) (m : NewView)
    (hm : V.cfg.primary m.v = V.id → m = NewView.new m.v) :
    Ensures (NVInfo.addNewView V m) s (fun _ t =>
        Tallies V.cfg V.id t (if t.v = s.v then acked else [])) fun _ => True := by
  refine Reaches.mono (addNewView_fresh (fun hz => (h.zero hz).2) m) fun _ t ht => ?_
  rcases ht with ⟨rfl, -⟩ | ⟨hlt, hv, hnv, hz⟩
  · rw [if_pos rfl]
    exact h
  · rw [if_neg (by omega)]
    refine tallies_fresh hz fun hp j => inNewView_new ?_ j
    rw [hnv, hv, ← hm (hv ▸ hp)]

/-- **`mark_stale`** -/
theorem markStale_tallies (h : Tallies V.cfg V.id s acked) (hF : Filed V.cfg s.vcOf) :
    Ensures (NVInfo.markStale V) s (fun _ t =>
        Tallies V.cfg V.id t (if s.isComplete = true then acked else [])) fun _ => True := by
  refine Reaches.get_bind (Reaches.ite (fun hc => Reaches.pure ?_)
    fun hc => Reaches.modify_bind trivial ?_)
  · rw [if_pos hc]
    exact h
  rw [if_neg hc]
  have hclear : Tallies V.cfg V.id s.clear [] := tallies_fresh (fun _ => rfl) fun _ _ => rfl
  refine Reaches.ite (fun hp => ?_) fun _ => Reaches.pure hclear
  refine Ensures.bind (Q := fun _ t => Tallies V.cfg V.id t []) ?_ fun _ t ht => Reaches.pure ht
  refine Ensures.bind (Q := fun _ t => Tallies V.cfg V.id t [] ∧ t.v ≠ 0) ?_ ?_
  · refine ((addNewView_tallies hclear (NewView.new s.v)
      fun _ => rfl).and (addNewView_fresh (fun _ _ => rfl) (NewView.new s.v))).imp
      (fun _ t ⟨h1, h2⟩ => ⟨?_, ?_⟩) fun _ _ => trivial
    · rw [ite_self] at h1
      exact h1
    · rcases h2 with ⟨-, hle⟩ | ⟨-, hv, -⟩
      · exact absurd hle (not_le.2 hp.1)
      · rw [hv]
        exact hp.1.ne'
  rintro _ t ⟨ht, hz⟩
  refine Reaches.ofOption_bind trivial fun vc hvc => ?_
  refine Ensures.bind (addViewChange_tallies ht vc true true (fun _ => hz)
    fun _ => (hF V.id vc hvc).2.2) fun _ u hu => ?_
  exact Reaches.pure hu.1

/-- The primary is given no view-change with a null digest, and a backup no acknowledgement that
matches. -/
def NVStep.acksSafe (cfg : Cfg) (id : Nat) (s : NVInfo) (a : NVStep) : Bool :=
  match a.op with
  | .addViewChange m .. => cfg.primary s.v != id || !(cfg.vcDigest m).isZero
  | .addAck m => cfg.primary s.v == id || !matching ⟨cfg, id, a.prePrepare, a.prepare⟩ s m
  | _ => true

theorem perform_tallies {a : NVStep} (h : Tallies cfg id s acked) (hF : Filed cfg s.vcOf)
    (hv : a.op.verified cfg id = true) (hs : a.acksSafe cfg id s = true) :
    Ensures (a.op.perform ⟨cfg, id, a.prePrepare, a.prepare⟩)
      s (fun _ t => Tallies cfg id t (Acked.noted cfg id a s t acked))
      fun _ => True := by
  set V : NVEnv := ⟨cfg, id, a.prePrepare, a.prepare⟩ with hV
  have hpoll : ∀ {α : Type} {x : Prog NVInfo α}, Polled s.poll x →
      Ensures x s (fun _ t => Tallies cfg id t (if t.v = s.v then acked else [])) fun _ => True :=
    fun hx => (hx s rfl).imp (fun _ t ht => by rw [if_pos (v_of_poll ht)]; exact h.of_poll ht)
      fun _ _ => trivial
  unfold NVStep.acksSafe at hs
  unfold Acked.noted
  cases hop : a.op with
  | newNewView v => exact ensures_unit (addNewView_tallies (V := V) h (NewView.new v) fun _ => rfl)
  | addNewView m =>
    rw [hop] at hv
    refine ensures_unit (addNewView_tallies (V := V) h m fun hp => ?_)
    have hid := (Bool.and_eq_true_iff.1 hv).2
    rw [NewView.id, hp] at hid
    simp [hV] at hid
  | addViewChange m verified digestOk =>
    rw [hop] at hv hs
    have hpos : 0 < m.v := (of_decide_eq_true (Bool.and_eq_true_iff.1 hv).1).2.2.1
    refine ensures_unit (Reaches.mono (addViewChange_tallies
      (V := V) h m verified digestOk (fun he => he ▸ hpos.ne') fun hp => ?_)
      fun _ t ht => ?_)
    · simpa [show cfg.primary s.v = id from hp] using hs
    · rw [if_pos ht.2]
      exact ht.1
  | addAck m =>
    rw [hop] at hv hs
    refine ensures_unit (addAck_tallies (V := V) h hF hv fun hp => ?_)
    simpa [show cfg.primary s.v ≠ id from hp] using hs
  | fetchRequest n => exact ensures_unit (hpoll (fetchRequest_polled V _ n))
  | addMissing pp digestOk => exact hpoll (addMissing_polled V _ pp digestOk)
  | addMissingPrepare p => exact hpoll (addMissingPrepare_polled V _ p)
  | markStable ls => exact hpoll (markStable_polled V _ ls)
  | markStale => exact ensures_unit (markStale_tallies (V := V) h hF)

/-- A view-change with a null digest is not one that the message names. -/
theorem perform_told {σ : Traced} {a : NVStep} (h : Told cfg id σ)
    (hv : a.op.verified cfg id = true) (hs : a.acksSafe cfg id σ.s = true) :
    Ensures (a.op.perform ⟨cfg, id, a.prePrepare, a.prepare⟩)
      σ.s (fun _ t => Follows cfg id σ.nvOrder σ.reqOrder t)
      fun _ => True := by
  by_cases hd : a.digested cfg = true
  · exact perform_follows (V := ⟨cfg, id, a.prePrepare, a.prepare⟩) h a hv hd
  unfold NVStep.digested at hd
  unfold NVStep.acksSafe at hs
  cases hop : a.op with
  | addViewChange m verified digestOk =>
    rw [hop] at hd hs
    have hz : (cfg.vcDigest m).isZero = true := by simpa using hd
    have hp : cfg.primary σ.s.v ≠ id := by simpa [hz] using hs
    refine ensures_unit (Reaches.get_bind (Reaches.assert_bind trivial
      fun _ => Reaches.ite (fun _ => Reaches.pure h.follows) fun _ => ?_))
    refine Reaches.ofOption_bind trivial fun b hb =>
      Reaches.ite (fun _ => Reaches.pure h.follows) fun hnamed => ?_
    rw [if_neg fun hc => hp (isPrimary_iff.1 hc)] at hb
    obtain ⟨nv, -, hb⟩ := Option.bind_eq_some_iff.1 hb
    have hname : nv.viewChange cfg m.id = some (cfg.vcDigest m) := by
      have hb : (nv.viewChange cfg m.id == some (cfg.vcDigest m)) = b := Option.some.inj hb
      have hb' : b = true := by simpa using hnamed
      exact beq_iff_eq.1 (hb.trans hb')
    simp only [NewView.viewChange, Option.ite_none_right_eq_some, Option.some.injEq] at hname
    obtain ⟨⟨-, hnz⟩, heq⟩ := hname
    rw [heq, hz] at hnz
    cases hnz
  | _ => rw [hop] at hd; exact absurd rfl hd

theorem step_tallies {α β : Acked} {a : NVStep} (h : Told cfg id α.σ ∧ Tallies cfg id α.σ.s α.acked)
    (hs : a.acksSafe cfg id α.σ.s = true) (hst : α.step cfg id a = some β) :
    Told cfg id β.σ ∧ Tallies cfg id β.σ.s β.acked := by
  obtain ⟨τ, hτ, rfl⟩ := Option.map_eq_some_iff.1 hst
  obtain ⟨t, ht, rfl⟩ := Option.map_eq_some_iff.1 hτ
  obtain ⟨hv, u, hu, rfl⟩ := nvStep_eq ht
  have hfol := (perform_told h.1 hv hs).result.1
  have htal := (perform_tallies h.2 h.1.filed hv hs).result.1
  rw [hu] at hfol htal
  exact ⟨(hfol () rfl).told h.1.nodup h.1.nodupReqs, (htal () rfl).of_poll rfl⟩

theorem tallies_new : Tallies cfg id NVInfo.new [] := tallies_fresh (fun _ => rfl) fun _ _ => rfl

/-! ## What the counts are for -/

/-- A backup takes a view-change that it cannot authenticate with `f` acknowledgements. -/
theorem unverified_stored_iff {m : ViewChange} (hp : s.isPrimary V = false) (hv : m.v = s.v)
    (hid : m.id < V.cfg.n) (hnone : s.vcOf m.id = none) (hc : s.isComplete = false)
    (hn : named V.cfg s m.id = some (V.cfg.vcDigest m)) :
    ((NVInfo.addViewChange V m false true).after s).vcOf m.id = some m ↔
      V.cfg.f ≤ (s.vcs m.id).ackCount := by
  obtain ⟨nv, hnv, hname⟩ := Option.bind_eq_some_iff.1 hn
  have hnames : names V s m = some true := by simp [names, hnv, hname]
  have hassert : (m.v == s.v && decide (m.id < V.cfg.n)) = true := by simp [hv, hid]
  have hopen : ¬((s.vcOf m.id).isSome || s.isComplete) = true := by simp [hnone, hc]
  by_cases hf : (s.vcs m.id).ackCount < V.cfg.f
  · have hx : Ensures (NVInfo.addViewChange V m false true) s (fun _ t => t = s)
      fun t => t = s := by
      refine Reaches.get_bind
        (Reaches.true_bind hassert (Reaches.ite (fun _ => Reaches.pure rfl) fun _ => ?_))
      refine Reaches.ofOption_bind rfl fun b _ =>
        Reaches.ite (fun _ => Reaches.pure rfl) fun _ => ?_
      exact Reaches.ite (fun _ => Reaches.pure rfl) fun hver => absurd (by simp [hf]) hver
    rw [hx.after, hnone]
    exact iff_of_false nofun (not_le.2 hf)
  · have hx : Ensures (NVInfo.addViewChange V m false true) s (fun _ t => t.poll = (s.store m).poll)
        fun t => t.poll = (s.store m).poll := by
      refine Reaches.get_bind
        (Reaches.true_bind hassert (Reaches.ite (fun h => absurd h hopen) fun _ => ?_))
      refine Reaches.some_bind (a := true) (by rw [hp, hnames]; rfl)
        (Reaches.ite (fun h => absurd h (by simp)) fun _ => ?_)
      refine Reaches.ite (fun h => absurd h (by simp [hp, hf]))
        fun _ => Reaches.modify_bind trivial ?_
      refine Ensures.bind (Q := fun _ t => t.poll = (s.store m).poll) ?_
        fun _ t ht => Reaches.pure ht
      refine Reaches.get_bind (Reaches.ite (fun h => ?_)
        fun _ => Reaches.when (fun _ => ?_) fun _ => rfl)
      · have hp' : s.isPrimary V = true := h
        exact absurd hp' (by simp [hp])
      · exact Ensures.bind (checkNewView_polled V _ _ rfl) fun _ t ht => Reaches.pure ht
    rw [vcOf_of_poll hx.after, store_vcOf, if_pos rfl]
    exact iff_of_true rfl (not_lt.1 hf)

/-- What both sides should do with the acknowledgements. -/
structure CountsRight (cfg : Cfg) (id : Nat) (α : Acked) : Prop where
  /-- A backup counts the acknowledgements of each view-change that the message names. -/
  backup : cfg.primary α.σ.s.v ≠ id → ∀ j d, named cfg α.σ.s j = some d →
    (α.σ.s.vcs j).ackCount = ackers cfg α.acked j
  /-- With `f` of them it takes one that it cannot authenticate. -/
  accepts : cfg.primary α.σ.s.v ≠ id → α.σ.s.isComplete = false →
    ∀ (prePrepare : Int → Digest → Option (Option PrePrepareMsg))
    (prepare : Int → Digest → Bool) (m : ViewChange), m.v = α.σ.s.v →
      m.id < cfg.n → α.σ.s.vcOf m.id = none →
    named cfg α.σ.s m.id = some (cfg.vcDigest m) →
    (((NVInfo.addViewChange ⟨cfg, id, prePrepare, prepare⟩ m false true).after α.σ.s).vcOf
      m.id = some m ↔
      cfg.f ≤ ackers cfg α.acked m.id)
  /-- The primary has included the view-change of another replica once `2f - 1` have acknowledged
  it, and its own one at once. -/
  includes : cfg.primary α.σ.s.v = id → ∀ j, j < cfg.n → j ≠ id →
    (α.σ.s.inNewView cfg j = true ↔ 2 * cfg.f ≤ ackers cfg α.acked j + 1)
  own : cfg.primary α.σ.s.v = id → α.σ.s.inNewView cfg id = (α.σ.s.vcOf id).isSome
  /-- What it has included it has summarized, each view-change once. -/
  order : cfg.primary α.σ.s.v = id → α.σ.nvOrder.Nodup ∧ ∀ j, j ∈ α.σ.nvOrder ↔
    α.σ.s.inNewView cfg j = true
  ckpts : cfg.primary α.σ.s.v = id → Ckpted cfg.P α.σ.s.ckpts α.σ.processed
  requests : cfg.primary α.σ.s.v = id → α.σ.reqOrder.Nodup ∧
    (α.σ.s.isComplete = false → ∀ i, α.σ.s.min < i → i < α.σ.s.max →
    α.σ.s.rowOf i = byReq.entries (requests cfg.P i α.σ.summed))

theorem Tallies.countsRight {α : Acked} (ht : Told cfg id α.σ) (h : Tallies cfg id α.σ.s α.acked) :
    CountsRight cfg id α where
  backup hp j _ _ := by
    obtain ⟨h1, h2⟩ := h.backup hp
    simp [h1, h2, ackers]
  accepts hp hc prePrepare prepare m hv hid hnone hn := by
    have hb : α.σ.s.isPrimary ⟨cfg, id, prePrepare, prepare⟩ = false := by
      simpa [isPrimary] using hp
    obtain ⟨h1, h2⟩ := h.backup hp
    rw [unverified_stored_iff hb hv hid hnone hc hn]
    simp [h1, h2, ackers]
  includes hp j hj hne := by
    have hst := h.primary hp j hj hne
    unfold Standing at hst
    by_cases hin : α.σ.s.inNewView cfg j = true
    · rw [if_pos hin] at hst
      exact iff_of_true hin hst
    · rw [if_neg hin] at hst
      have := hst.few
      rw [← hst.ackers_eq] at this
      exact iff_of_false hin (by omega)
  own := h.own
  order hp := ⟨ht.nodup, (ht.primary hp).mem⟩
  ckpts hp := (ht.primary hp).ckpted
  requests hp := ⟨ht.nodupReqs, (ht.primary hp).rowed.rows⟩

/-- **Acknowledgements are counted at the primary.** In a run in which a backup gets no
acknowledgement that matches, and the primary no view-change with a null digest, the counts are
right in the state reached. -/
theorem run_countsRight {steps : List NVStep} {α : Acked}
    (hok : Run.Meets (Acked.step cfg id) (fun α a => a.acksSafe cfg id α.σ.s = true)
      Acked.new steps)
    (hrun : Run.run (Acked.step cfg id) Acked.new steps = some α) : CountsRight cfg id α := by
  have hinv := Run.invariant (I := fun α : Acked => Told cfg id α.σ ∧ Tallies cfg id α.σ.s α.acked)
    (fun α a β h hs hst => step_tallies h hs hst) ⟨told_new, tallies_new⟩ hok hrun
  exact hinv.2.countsRight hinv.1

/-- Replica 1, the primary, includes the view-change of replica 0 with the acknowledgement of
replica 3. -/
theorem run_countsRight_primary :
    ∃ α, Run.run (Acked.step Replica.fourReplicas 1) Acked.new (ackedRun [earlyVC]) = some α ∧
    α.σ.nvOrder = [1, 0] ∧ α.acked = [(3, 0)] ∧ CountsRight Replica.fourReplicas 1 α := by
  have hrun :
    ((Run.run (Acked.step Replica.fourReplicas 1) Acked.new (ackedRun [earlyVC])).any fun α =>
      decide (α.σ.nvOrder = [1, 0] ∧ α.acked = [(3, 0)])) = true := by decide +kernel
  obtain ⟨α, hα, h⟩ := (Option.any_eq_true _ _).1 hrun
  obtain ⟨ho, ha⟩ := of_decide_eq_true h
  exact ⟨α, hα, ho, ha, run_countsRight (by decide +kernel) hα⟩

/-- Replica 0, a backup, gets the message and the acknowledgement of replica 3 for the view-change
of replica 2. -/
def backupRun : List NVStep := [.addNewView threeNewView, .addAck ⟨1, 3, 2, 3⟩].map opStep

/-- The backup has not counted the acknowledgement, and turns down the view-change, which it cannot
authenticate. -/
theorem backup_counts_nothing :
    ∃ α, Run.run (Acked.step Replica.fourReplicas 0) Acked.new backupRun = some α ∧
    named Replica.fourReplicas α.σ.s 2 = some 3 ∧ (α.σ.s.vcs 2).ackCount = 0 ∧
      ackers Replica.fourReplicas α.acked 2 = 1 ∧
    ¬CountsRight Replica.fourReplicas 0 α := by
  have hrun : ((Run.run (Acked.step Replica.fourReplicas 0) Acked.new backupRun).any fun α =>
      decide (Replica.fourReplicas.primary α.σ.s.v ≠ 0 ∧
        named Replica.fourReplicas α.σ.s 2 = some 3 ∧
        (α.σ.s.vcs 2).ackCount = 0 ∧ ackers Replica.fourReplicas α.acked 2 = 1)) =
          true := by decide +kernel
  obtain ⟨α, hα, h⟩ := (Option.any_eq_true _ _).1 hrun
  obtain ⟨hp, hn, hc, ha⟩ := of_decide_eq_true h
  refine ⟨α, hα, hn, hc, ha, fun hr => ?_⟩
  have := hr.backup hp 2 3 hn
  omega

end NVInfo

end TinyBFT
