import TinyBFT.NVInfo
import TinyBFT.Lib.Count

/-!
# When an `NV_info` calls `process_new_view`

An `NV_info` calls `process_new_view` at most once, when it becomes complete, and a backup's becomes
complete only with the view-changes of `2f + 1` replicas. What an operation keeps is the relation
`Kept`; one that stops may leave a complete `NV_info` that has not made the call (`Lost`).

| here | there |
| --- | --- |
| `Wf.quorum`  | `n_le >= node->n_f()` of `check_new_view` (`NV_info.cc:601`) |
| `Wf.acks`    | a backup never counts an acknowledgement (`NV_info.cc:228-246`) |
| `Wf.sent`    | `nv_sent` (`NV_info.cc:569`) |
-/

namespace TinyBFT

namespace NVInfo

open Prog (Ensures Reaches Within Composes get modify assert ofOption when each eachUntil)

def isPnv : NVCall → Bool
  | .processNewView .. => true
  | .sendStatus => false

/-- The number of pending calls of `process_new_view`. -/
def pnvCalls (calls : List NVCall) : Nat := calls.countP isPnv

@[simp] theorem pnvCalls_nil : pnvCalls [] = 0 := rfl

@[simp] theorem pnvCalls_status (calls : List NVCall) :
    pnvCalls (calls ++ [.sendStatus]) = pnvCalls calls := by
  simp [pnvCalls, isPnv]

@[simp] theorem pnvCalls_pnv (calls : List NVCall) (min max ms : Int) (d : Digest) :
    pnvCalls (calls ++ [.processNewView min d max ms]) = pnvCalls calls + 1 := by
  simp [pnvCalls, isPnv]

/-- The number of replicas whose view-change is there. -/
def present (cfg : Cfg) (s : NVInfo) : Nat := (List.range cfg.n).countP fun i => (s.vcOf i).isSome

/-- The parent's log finds a pre-prepare under its own sequence number. -/
def Finds (V : NVEnv) : Prop := ∀ n d m, V.prePrepare n d = some (some m) → m.seqno = n

/-- The pre-prepares that a primary found for the requests are for their sequence numbers, in its
view. -/
structure Rows (s : NVInfo) : Prop where
  empty : s.chosenCkpt = none → s.reqs = []
  pi : ∀ (k : Nat) r cur pp, s.reqs[k]? = some r → cur ∈ r →
    cur.pi = some pp → pp.view = s.v ∧ pp.seqno = s.base + k

structure Wf (V : NVEnv) (s : NVInfo) : Prop where
  /-- View-changes are for the view, and filed under their senders. -/
  range : ∀ i m, s.vcOf i = some m → m.id = i ∧ i < V.cfg.n ∧ m.v = s.v
  /-- A backup that got as far as choosing a checkpoint has a quorum of view-changes. -/
  quorum : s.isPrimary V = false → (s.chosenCkpt.isSome = true ∨ s.isComplete = true) →
    V.cfg.nf ≤ s.present V.cfg
  acks : s.isPrimary V = false → ∀ i, (s.vcs i).ackCount = 0
  once : pnvCalls s.calls ≤ 1
  complete : pnvCalls s.calls = 1 → s.isComplete = true
  sent : s.isPrimary V = true → s.isComplete = true → s.nvSent = true
  rows : Finds V → s.isPrimary V = true → Rows s

/-- What an operation on the `NV_info` of one view keeps. -/
structure Kept (V : NVEnv) (s t : NVInfo) : Prop where
  wf : Wf V t
  v : t.v = s.v
  vcOf : t.vcOf = s.vcOf
  chosen : s.chosenCkpt.isSome = true → t.chosenCkpt.isSome = true
  complete : s.isComplete = true → t.isComplete = true
  /-- A complete new view makes no further call. -/
  calm : s.isComplete = true → pnvCalls t.calls = pnvCalls s.calls
  /-- One that becomes complete has made the call. -/
  called : t.isComplete = true → s.isComplete = true ∨ pnvCalls t.calls = 1

/-- An operation that stops did as much, or it stopped on the way from completing the new view to
the call. -/
def Lost (V : NVEnv) (s t : NVInfo) : Prop :=
  Kept V s t ∨ s.isComplete = false ∧ pnvCalls t.calls = 0 ∧ t.v = s.v ∧ t.vcOf = s.vcOf ∧
    (s.isPrimary V = false → V.cfg.nf ≤ s.present V.cfg)

variable {V : NVEnv} {s t u : NVInfo}

theorem Kept.refl (h : Wf V s) : Kept V s s := ⟨h, rfl, rfl, id, id, fun _ => rfl, .inl⟩

theorem Kept.trans (h : Kept V s t) (h' : Kept V t u) : Kept V s u where
  wf := h'.wf
  v := h'.v.trans h.v
  vcOf := h'.vcOf.trans h.vcOf
  chosen hs := h'.chosen (h.chosen hs)
  complete hs := h'.complete (h.complete hs)
  calm hs := (h'.calm (h.complete hs)).trans (h.calm hs)
  called hu :=
    (h'.called hu).elim (fun ht => (h.called ht).imp id fun h1 => (h'.calm ht).trans h1) .inr

theorem Kept.isPrimary (h : Kept V s t) :
    t.isPrimary V = s.isPrimary V := by simp [NVInfo.isPrimary, h.v]

theorem kept_composes : Composes (Kept V) (Lost V) where
  step := Kept.trans
  crash := by
    rintro s t u h (h' | ⟨hi, hcalls, hv, hvc, hq⟩)
    · exact .inl (h.trans h')
    · refine .inr ⟨?_, hcalls, hv.trans h.v, hvc.trans h.vcOf, ?_⟩
      · by_contra hne
        simp [h.complete (by simpa using hne)] at hi
      · rw [h.isPrimary, present, h.vcOf] at hq
        exact hq

/-- The fields that `Wf` depends on. -/
structure Core where
  v : Int
  vcs : Nat → Option ViewChange × Nat
  chosen : Bool
  complete : Bool
  sent : Bool
  pnv : Nat

def core (s : NVInfo) : Core where
  v := s.v
  vcs i := ((s.vcs i).vc, (s.vcs i).ackCount)
  chosen := s.chosenCkpt.isSome
  complete := s.isComplete
  sent := s.nvSent
  pnv := pnvCalls s.calls

/-- The rest of the core stays, and a backup that got as far as choosing a checkpoint has a
quorum. -/
theorem kept_of_choice (h : Wf V s) {chosen : Bool} (he : core t = { core s with chosen := chosen })
    (hch : s.chosenCkpt.isSome = true → chosen = true)
    (hq : s.isPrimary V = false → (chosen = true ∨ s.isComplete = true) →
      V.cfg.nf ≤ s.present V.cfg)
    (hr : Finds V → s.isPrimary V = true → Rows s → Rows t) : Kept V s t := by
  simp only [core, Core.mk.injEq] at he
  obtain ⟨hv, hvcs, hcht, hco, hse, hca⟩ := he
  have hvc : t.vcOf = s.vcOf := funext fun i => congrArg Prod.fst (congrFun hvcs i)
  have hp : t.isPrimary V = s.isPrimary V := by simp [NVInfo.isPrimary, hv]
  have hpr : t.present V.cfg = s.present V.cfg := by simp [present, hvc]
  refine ⟨⟨by rw [hvc, hv]; exact h.range, ?_, ?_, ?_, ?_, ?_, ?_⟩,
    hv, hvc, by rw [hcht]; exact hch, by rw [hco]; exact id,
    fun _ => hca, fun ht => .inl (by rw [← hco]; exact ht)⟩
  · rw [hp, hcht, hco, hpr]; exact hq
  · rw [hp]
    intro hb i
    rw [show (t.vcs i).ackCount = (s.vcs i).ackCount from congrArg Prod.snd (congrFun hvcs i)]
    exact h.acks hb i
  · rw [hca]; exact h.once
  · rw [hca, hco]; exact h.complete
  · rw [hp, hco, hse]; exact h.sent
  · rw [hp]
    exact fun hV hb => hr hV hb (h.rows hV hb)

theorem kept_of_core (h : Wf V s) (he : core t = core s)
    (hr : Finds V → s.isPrimary V = true → Rows s → Rows t) : Kept V s t :=
  kept_of_choice h he id h.quorum hr

variable (V) in
/-- The program does nothing but what `Kept` says. -/
abbrev Keeps {α : Type} (x : Prog NVInfo α) (s : NVInfo) : Prop := Within (Kept V) (Lost V) x s

theorem Wf.stop (h : Wf V s) : Lost V s s := .inl (.refl h)

/-- A change of the fields that `Wf` does not depend on. -/
theorem keeps_modify_bind {α : Type} {g : NVInfo → NVInfo} {f : Unit → Prog NVInfo α} (h : Wf V s)
    (he : core (g s) = core s) (hr : Finds V → s.isPrimary V = true → Rows s → Rows (g s))
    (hf : Wf V (g s) → Keeps V (f ()) (g s)) :
    Keeps V (modify g >>= f) s :=
  have hk := kept_of_core h he hr
  .modify_bind kept_composes hk (hf hk.wf)

theorem keeps_modify {g : NVInfo → NVInfo} (h : Wf V s) (he : core (g s) = core s)
    (hr : Finds V → s.isPrimary V = true → Rows s → Rows (g s)) : Keeps V (modify g) s :=
  .modify (kept_of_core h he hr)

/-! ## The rows of requests -/

/-- The rows are the same. -/
theorem Rows.same (h : Rows s) (hv : t.v = s.v) (hc : s.chosenCkpt = none ∨ t.chosenCkpt ≠ none)
    (hb : t.base = s.base) (hr : t.reqs = s.reqs) : Rows t := by
  refine ⟨fun hn => ?_, ?_⟩
  · rw [hr]
    exact hc.elim h.empty fun hne => absurd hn hne
  · rw [hv, hb, hr]
    exact h.pi

theorem cell_row {i : Int} {j : Nat} {cur : ReqSum} (hc : s.cell i j = some cur) :
    s.base ≤ i ∧ ∃ r, s.reqs[(i - s.base).toNat]? = some r ∧ cur ∈ r := by
  simp only [cell, row, Option.bind_eq_bind, Option.bind_eq_some_iff,
    Option.ite_none_right_eq_some] at hc
  obtain ⟨k, ⟨⟨h0, -⟩, hk⟩, r, hr, hj⟩ := hc
  cases hk
  exact ⟨by omega, r, hr, List.mem_of_getElem? hj⟩

theorem Rows.cell_pi (h : Rows s) {i : Int} {j : Nat} {cur : ReqSum} (hc : s.cell i j = some cur)
    {pp : PrePrepareMsg} (hpi : cur.pi = some pp) : pp.view = s.v ∧ pp.seqno = i := by
  obtain ⟨hi, r, hr, hmem⟩ := cell_row hc
  obtain ⟨h1, h2⟩ := h.pi _ r cur pp hr hmem hpi
  exact ⟨h1, by omega⟩

/-- One row is changed, and what is new in it is for its sequence number. -/
theorem Rows.modify (h : Rows s) {k : Nat} {g : List ReqSum → List ReqSum}
    (hg : ∀ r cur, s.reqs[k]? = some r → cur ∈ g r →
      cur ∈ r ∨ ∀ pp, cur.pi = some pp → pp.view = s.v ∧ pp.seqno = s.base + k)
    (hr : t.reqs = s.reqs.modify k g) (hv : t.v = s.v) (hc : t.chosenCkpt = s.chosenCkpt)
    (hb : t.base = s.base) : Rows t := by
  refine ⟨fun hn => ?_, fun k' r cur pp hk hmem hpi => ?_⟩
  · rw [hr, h.empty (hc ▸ hn)]
    simp
  · rw [hv, hb]
    rw [hr, List.getElem?_modify] at hk
    obtain ⟨r', hr', heq⟩ := Option.map_eq_some_iff.1 hk
    split at heq
    · subst heq
      rename_i he
      subst he
      rcases hg r' cur hr' hmem with hold | hnew
      · exact h.pi _ r' cur pp hr' hold hpi
      · exact hnew pp hpi
    · subst heq
      exact h.pi _ _ cur pp hr' hmem hpi

/-- An entry is changed; its pre-prepare is for its sequence number. -/
theorem Rows.setCell (h : Rows s) {i : Int} {j : Nat} {old cur : ReqSum}
    (hc : s.cell i j = some old) (hpi : ∀ pp, cur.pi = some pp → pp.view = s.v ∧ pp.seqno = i) :
    Rows (NVInfo.setCell i j cur s) := by
  obtain ⟨hi, -⟩ := cell_row hc
  refine h.modify (k := (i - s.base).toNat) (g := fun r => r.set j cur)
    (fun r c _ hmem => ?_) rfl rfl rfl rfl
  rcases List.mem_or_eq_of_mem_set hmem with hmem | rfl
  · exact .inl hmem
  · refine .inr fun pp hpp => ?_
    obtain ⟨h1, h2⟩ := hpi pp hpp
    exact ⟨h1, by omega⟩

/-- Only the proofs are counted. -/
theorem getProofs_counts {cur cur' : ReqSum} {vc : ViewChange} {i : Int}
    (h : getProofs V cur vc i = some cur') :
    ∃ n pp r, cur' = { cur with nProofs := n, nPproofs := pp, rPproofs := r } := by
  simp only [getProofs, Option.bind_eq_bind, Option.bind_eq_some_iff] at h
  obtain ⟨o, -, h⟩ := h
  split at h
  · split at h <;> cases h <;> exact ⟨_, _, _, rfl⟩
  · split at h
    · split at h <;> cases h <;> exact ⟨_, _, _, rfl⟩
    · split at h
      · cases h
        exact ⟨_, _, _, rfl⟩
      · split at h <;> cases h <;> exact ⟨_, _, _, rfl⟩

theorem getProofs_pi {cur cur' : ReqSum} {vc : ViewChange} {i : Int}
    (h : getProofs V cur vc i = some cur') :
    cur'.pi = cur.pi := by
  obtain ⟨n, pp, r, rfl⟩ := getProofs_counts h
  rfl

theorem countReq_pi {cur cur' : ReqSum} {vc : ViewChange} {i rv : Int} {rd : Digest}
    (h : countReq V vc i rv rd cur = some cur') :
    cur'.pi = cur.pi := by
  unfold countReq at h
  split at h
  · cases h
    rfl
  · obtain ⟨c, hc, heq⟩ := Option.map_eq_some_iff.1 h
    rw [← getProofs_pi hc, ← heq]
    split <;> rfl

/-- What `get_proofs` keeps of an entry, the search through the view-changes keeps. -/
theorem searchProofs_keeps {α : Type} (f : ReqSum → α) {i : Int}
    (hf : ∀ {vc : ViewChange} {c c' : ReqSum}, getProofs V c vc i = some c' → f c' = f c)
    {cur cur' : ReqSum} (h : searchProofs V s i cur = some cur') : f cur' = f cur := by
  have hfold : ∀ (l : List Nat) (c : ReqSum), l.foldlM (fun cur j =>
      if (s.vcs j).reqSum then do getProofs V cur (← s.vcOf j) i else some cur) c = some cur' →
        f cur' = f c := by
    intro l
    induction l with
    | nil =>
      intro c hc
      cases hc
      rfl
    | cons j l ih =>
      intro c hc
      simp only [List.foldlM_cons, Option.bind_eq_bind, Option.bind_eq_some_iff] at hc
      obtain ⟨c', hc', hl⟩ := hc
      rw [ih c' hl]
      split at hc'
      · obtain ⟨vc, -, hp⟩ := Option.bind_eq_some_iff.1 hc'
        exact hf hp
      · cases hc'
        rfl
  exact hfold _ _ h

theorem searchProofs_pi {cur cur' : ReqSum} {i : Int} (h : searchProofs V s i cur = some cur') :
    cur'.pi = cur.pi :=
  searchProofs_keeps (·.pi) getProofs_pi h

/-- What is found in the parent's log gets the view of the new view. -/
theorem fromLog_pi (hV : Finds V) {cur cur' : ReqSum} {i : Int} (h : fromLog V s cur i = some cur')
    {pp : PrePrepareMsg} (hpi : cur'.pi = some pp) :
    cur.pi = some pp ∨ pp.view = s.v ∧ pp.seqno = i := by
  have hpi' : ∀ {c : ReqSum},
    (some (if c.nPproofs ≤ V.cfg.f && V.prepare i c.d then { c with nPproofs := V.cfg.n } else c)) =
      some cur' → c.pi = some pp := by
    intro c hc
    cases hc
    split at hpi <;> exact hpi
  simp only [fromLog, Option.bind_eq_bind] at h
  split at h
  · exact .inl (hpi' h)
  · obtain ⟨c, hc, h⟩ := Option.bind_eq_some_iff.1 h
    have hcpi := hpi' h
    obtain ⟨o, ho, heq⟩ := Option.map_eq_some_iff.1 hc
    cases o with
    | none =>
      cases heq
      exact .inl hcpi
    | some opp =>
      cases heq
      cases hcpi
      exact .inr ⟨rfl, hV i cur.d opp ho⟩

/-! ## Completion -/

theorem Wf.no_call (h : Wf V s) (hi : s.isComplete = false) : pnvCalls s.calls = 0 := by
  have h1 := h.once
  have h2 : pnvCalls s.calls ≠ 1 := fun h1 => by simp [h.complete h1] at hi
  omega

/-- The state of a new view that was completed from `s` and called `process_new_view`. -/
theorem kept_complete {b : Bool} (h : Wf V s) (hi : s.isComplete = false)
    (hq : s.isPrimary V = false → s.chosenCkpt.isSome = true) (hb : s.isPrimary V = true → b = true)
    (he : core t = { core s with complete := true, sent := b, pnv := pnvCalls s.calls + 1 })
    (hr : Rows s → Rows t) :
    Kept V s t := by
  simp only [core, Core.mk.injEq] at he
  obtain ⟨hv, hvcs, hch, hco, hse, hca⟩ := he
  have hvc : t.vcOf = s.vcOf := funext fun i => congrArg Prod.fst (congrFun hvcs i)
  have hp : t.isPrimary V = s.isPrimary V := by simp [NVInfo.isPrimary, hv]
  have hpr : t.present V.cfg = s.present V.cfg := by simp [present, hvc]
  refine ⟨⟨by rw [hvc, hv]; exact h.range, ?_, ?_, ?_, ?_, ?_, ?_⟩,
    hv, hvc, by rw [hch]; exact id, by simp [hi], by simp [hi],
    fun _ => .inr (by rw [hca, h.no_call hi])⟩
  · rw [hp, hpr]
    intro hb _
    exact h.quorum hb (.inl (hq hb))
  · rw [hp]
    intro hb i
    rw [show (t.vcs i).ackCount = (s.vcs i).ackCount from congrArg Prod.snd (congrFun hvcs i)]
    exact h.acks hb i
  · rw [hca, h.no_call hi]
  · exact fun _ => hco
  · rw [hp, hse]
    exact fun hp _ => hb hp
  · rw [hp]
    exact fun hV hb => hr (h.rows hV hb)

theorem makeNewView_ensures (s : NVInfo) :
    Ensures (makeNewView V) s
      (fun _ t => s.isPrimary V = true ∧ s.nvSent = false ∧
        core t = { core s with sent := true, pnv := pnvCalls s.calls + 1 } ∧ (Rows s → Rows t))
      (fun t => t = s ∨ s.isPrimary V = true ∧ s.nvSent = false ∧
          pnvCalls t.calls = pnvCalls s.calls ∧ t.v = s.v ∧
        t.vcOf = s.vcOf) := by
  refine Reaches.get_bind (Reaches.assert_bind (.inl rfl) fun ha => ?_)
  obtain ⟨⟨hp, -⟩, hs⟩ : (s.isPrimary V = true ∧ s.isComplete = true) ∧ s.nvSent = false := by
    simpa using ha
  refine Reaches.ofOption_bind (.inl rfl) fun nv _ => Reaches.modify_bind trivial ?_
  refine Reaches.ofOption_bind (.inr ⟨hp, hs, rfl, rfl, rfl⟩) fun ks _ => ?_
  refine Reaches.ofOption_bind (.inr ⟨hp, hs, rfl, rfl, rfl⟩) fun ck _ => ?_
  refine Reaches.modify trivial ⟨hp, hs, ?_, fun r => ⟨r.empty, r.pi⟩⟩
  simp [core]

theorem finishBackup_ensures (s : NVInfo) :
    Ensures (finishBackup V) s (fun _ t => core t = { core s with pnv := pnvCalls s.calls + 1 } ∧
        (Rows s → Rows t))
      (fun t => t = s) := by
  refine Reaches.get_bind (Reaches.ofOption_bind rfl
    fun nv _ => Reaches.ofOption_bind rfl fun vc _ => ?_)
  refine Reaches.ofOption_bind rfl fun d _ => Reaches.assert_bind rfl
    fun _ => Reaches.ofOption_bind rfl fun ks _ => ?_
  refine Reaches.modify trivial ⟨?_, fun r => ⟨r.empty, r.pi⟩⟩
  simp [core]

/-- A new view that was marked complete and stopped before the call. -/
theorem lost_complete (h : Wf V s) (hq : s.isPrimary V = false → V.cfg.nf ≤ s.present V.cfg) :
    Lost V s { s with isComplete := true } := by
  by_cases hi : s.isComplete = true
  · exact .inl (kept_of_core h (by simp [core, hi]) fun _ _ r => ⟨r.empty, r.pi⟩)
  · have hi : s.isComplete = false := by simpa using hi
    exact .inr ⟨hi, h.no_call hi, rfl, rfl, hq⟩

/-- The end of `choose_ckpt`. -/
theorem finishPrimary_keeps (h : Wf V s) (hp : s.isPrimary V = true) :
    Keeps V (finishIf (makeNewView V)) s := by
  refine .get_bind (.when (.refl h) fun _ => ?_)
  let c : NVInfo := { s with isComplete := true }
  have hi : s.nvSent = false → s.isComplete = false := by
    intro hs
    by_contra hne
    simp [h.sent hp (by simpa using hne)] at hs
  refine Reaches.modify_bind trivial
    (Reaches.weaken (Reaches.mono (makeNewView_ensures c) ?_) (fun _ _ h => h) ?_)
  · rintro _ t ⟨-, hs, he, hr⟩
    exact kept_complete h (hi hs) (by simp [hp]) (fun _ => rfl) he fun r => hr ⟨r.empty, r.pi⟩
  · rintro _ t (rfl | ⟨-, hs, he, hv, hvc⟩)
    · exact lost_complete h (by simp [hp])
    · exact .inr ⟨hi hs, he.trans (h.no_call (hi hs)), hv, hvc, by simp [hp]⟩

/-- The end of `check_comp`. -/
theorem finish_keeps (h : Wf V s) (hi : s.isComplete = false)
    (hq : s.isPrimary V = false → s.chosenCkpt.isSome = true) :
    Keeps V (finish V) s := by
  refine .get_bind (.when (.refl h) fun _ => ?_)
  let c : NVInfo := { s with isComplete := true }
  refine Reaches.modify_bind trivial (Reaches.get_bind ?_)
  by_cases hp : s.isPrimary V = true
  · have hp' : c.isPrimary V = true := hp
    refine Reaches.ite (fun _ => ?_) fun hne => absurd hp' hne
    refine Reaches.weaken (Reaches.mono (makeNewView_ensures c) ?_) (fun _ _ h => h) ?_
    · rintro _ t ⟨-, -, he, hr⟩
      exact kept_complete h hi hq (fun _ => rfl) he fun r => hr ⟨r.empty, r.pi⟩
    · rintro _ t (rfl | ⟨-, -, he, hv, hvc⟩)
      · exact lost_complete h (by simp [hp])
      · exact .inr ⟨hi, he.trans (h.no_call hi), hv, hvc, by simp [hp]⟩
  · have hp' : ¬c.isPrimary V = true := hp
    refine Reaches.ite (fun hc => absurd hc hp') fun _ => ?_
    refine Reaches.weaken (Reaches.mono (finishBackup_ensures c) ?_) (fun _ _ h => h) ?_
    · rintro _ t ⟨he, hr⟩
      exact kept_complete h hi hq (fun hc => absurd hc hp) he fun r => hr ⟨r.empty, r.pi⟩
    · rintro _ t rfl
      exact lost_complete h fun hb => h.quorum hb (.inl (hq hb))

theorem checkComp_keeps (h : Wf V s) (i : Int) (j : Nat)
    (hq : s.isPrimary V = false → s.chosenCkpt.isSome = true) :
    Keeps V (checkComp V i j) s := by
  refine .get_bind (.assert_bind h.stop fun hi => ?_)
  have hi : s.isComplete = false := by simpa using hi
  refine .ofOption_bind h.stop fun cur hcur => .ofOption_bind h.stop fun done _ => ?_
  refine .ite (fun _ => ?_) fun _ => finish_keeps h hi hq
  refine .ofOption_bind h.stop fun cur' hcur' =>
    keeps_modify_bind h rfl (fun hV _ r => ?_) fun h1 => ?_
  · exact r.setCell hcur fun pp hpp => (fromLog_pi hV hcur' hpp).elim (r.cell_pi hcur) id
  refine .ite (fun _ => ?_) fun _ => .pure (.refl h1)
  exact keeps_modify_bind h1 rfl (fun _ _ r => ⟨r.empty, r.pi⟩) fun h2 => finish_keeps h2 hi hq

/-! ## The primary -/

theorem sumEntry_keeps (h : Wf V s) (hp : s.isPrimary V = true) (vc : ViewChange) (i rv : Int)
    (rd : Digest) (j : Nat) :
    Keeps V (sumEntry V vc i rv rd j) s := by
  refine .get_bind (.ofOption_bind h.stop fun cur hcur =>
    .ofOption_bind h.stop fun cur' hcur' => ?_)
  refine keeps_modify_bind h rfl (fun _ _ r => ?_)
    fun h1 => .bind kept_composes (checkComp_keeps h1 i j ?_) fun _ t ht => ?_
  · exact r.setCell hcur fun pp hpp => r.cell_pi hcur (by rw [← countReq_pi hcur']; exact hpp)
  · intro hb
    have hb : s.isPrimary V = false := hb
    simp [hp] at hb
  · exact .get_bind (.pure (.refl ht.wf))

theorem addEntry_keeps (h : Wf V s) (hp : s.isPrimary V = true) (vc : ViewChange) (i rv : Int)
    (rd : Digest) :
    Keeps V (addEntry V vc i rv rd) s := by
  refine .get_bind (.ofOption_bind h.stop fun k _ => .ofOption_bind h.stop fun r _ => ?_)
  refine .ofOption_bind h.stop fun cur hcur =>
    keeps_modify_bind h rfl (fun _ _ rows => ?_) fun h1 =>
    checkComp_keeps h1 _ _ fun hb => ?_
  · refine rows.modify (k := k) (g := fun r => r ++ [cur]) (fun r c _ hmem => ?_) rfl rfl rfl rfl
    rcases List.mem_append.1 hmem with hmem | hmem
    · exact .inl hmem
    · refine .inr fun pp hpp => ?_
      rw [List.mem_singleton.1 hmem, searchProofs_pi hcur] at hpp
      cases hpp
  have hb : s.isPrimary V = false := hb
  simp [hp] at hb

theorem sumReq_keeps (h : Wf V s) (hp : s.isPrimary V = true) (vc : ViewChange) (i : Int) :
    Keeps V (sumReq V vc i) s := by
  refine .get_bind (.ofOption_bind h.stop fun k _ => .ofOption_bind h.stop fun r _ => ?_)
  refine .ofOption_bind h.stop fun q _ => ?_
  refine .bind kept_composes (.eachUntil kept_composes (.refl h) (fun j t ht => ?_) _)
    fun done t ht => ?_
  · exact sumEntry_keeps ht.wf (ht.isPrimary.trans hp) vc i _ _ j
  · refine .ite (fun _ => .pure (.refl ht.wf)) fun _ =>
      .bind kept_composes (.when (.refl ht.wf) fun _ => ?_) fun _ u hu => ?_
    · exact addEntry_keeps ht.wf (ht.isPrimary.trans hp) vc i _ _
    · exact .pure (.refl hu.wf)

theorem core_reqSum (s : NVInfo) (id : Nat) :
    core { s with vcs := Function.update s.vcs id { s.vcs id with reqSum := true } } = core s := by
  simp only [core, Core.mk.injEq, true_and, and_true]
  funext i
  by_cases hi : i = id
  · subst hi; simp
  · simp [hi]

theorem summarizeReqs_keeps (h : Wf V s) (hp : s.isPrimary V = true) (vc : ViewChange) :
    Keeps V (summarizeReqs V vc) s := by
  refine .get_bind (.assert_bind h.stop fun _ => keeps_modify_bind h (core_reqSum s vc.id)
    (fun _ _ r => ⟨r.empty, r.pi⟩) fun h1 => ?_)
  refine .bind kept_composes (.eachUntil kept_composes (.refl h1) (fun i t ht => ?_) _)
    fun _ t ht => .pure (.refl ht.wf)
  exact sumReq_keeps ht.wf (ht.isPrimary.trans hp) vc i

theorem sumVC_keeps (h : Wf V s) (hp : s.isPrimary V = true) (i : Nat) : Keeps V (sumVC V i) s := by
  refine .get_bind (.ite (fun _ => ?_) fun _ => .pure (.refl h))
  refine .ofOption_bind h.stop fun vc _ => .bind kept_composes (summarizeReqs_keeps h hp vc)
    fun _ t ht => ?_
  exact .get_bind (.pure (.refl ht.wf))

/-- Choosing a checkpoint. -/
theorem kept_chosen (h : Wf V s) (hq : s.isPrimary V = false → V.cfg.nf ≤ s.present V.cfg)
    (he : core t = { core s with chosen := true })
    (hr : s.isPrimary V = true → Rows s → Rows t) : Kept V s t :=
  kept_of_choice h he (fun _ => rfl) (fun hb _ => hq hb) fun _ => hr

theorem chooseCkpt_keeps (h : Wf V s) (index : Nat) : Keeps V (chooseCkpt V index) s := by
  refine .get_bind (.assert_bind h.stop fun hp => .ofOption_bind h.stop
    fun cur _ => .assert_bind h.stop fun _ => ?_)
  have hq : s.isPrimary V = false → V.cfg.nf ≤ s.present V.cfg := by simp [hp]
  refine .ite (fun hch => ?_) fun hch => ?_
  · have hnone : s.chosenCkpt = none := by simpa using hch
    refine .bind kept_composes (.assert_bind h.stop fun _ => ?_) fun done t ht => ?_
    · have hk : Kept V s { s with
          chosenCkpt := some index, min := cur.n, base := cur.n + 1, max := cur.maxSeqno + 1
          reqs := s.reqs ++ List.replicate (cur.maxSeqno + 1 - (cur.n + 1)).toNat []
          compReqs :=
            List.replicate (s.compReqs.length + (cur.maxSeqno + 1 - (cur.n + 1)).toNat) none } := by
        refine kept_chosen h hq rfl fun _ r =>
          ⟨(fun hn => by cases hn), fun k row c pp hk hmem _ => ?_⟩
        -- the new rows are empty
        simp only [r.empty hnone, List.nil_append, List.getElem?_replicate] at hk
        split at hk <;> cases hk
        cases hmem
      refine .modify_bind kept_composes hk
        (.eachUntil kept_composes (.refl hk.wf) (fun i t ht => ?_) _)
      exact sumVC_keeps ht.wf (ht.isPrimary.trans hp) i
    · exact .ite (fun _ => .pure (.refl ht.wf))
        fun _ => finishPrimary_keeps ht.wf (ht.isPrimary.trans hp)
  · refine .bind kept_composes (.get_bind ?_) fun _ t ht =>
      finishPrimary_keeps ht.wf (ht.isPrimary.trans hp)
    refine .ofOption_bind h.stop fun old _ => .when (.refl h)
      fun _ => .ofOption_bind h.stop fun k _ => ?_
    exact .modify (kept_chosen h hq rfl fun _ r => r.same rfl (.inr (by simp)) rfl rfl)

theorem summarize_keeps (h : Wf V s) (hp : s.isPrimary V = true) (vc : ViewChange) :
    Keeps V (summarize V vc) s := by
  refine .get_bind (.assert_bind h.stop fun _ => .ofOption_bind h.stop fun c _ => ?_)
  refine .bind kept_composes (.each kept_composes (.refl h) (fun i t ht => ?_) _) fun _ t ht => ?_
  · refine .get_bind (.ofOption_bind ht.wf.stop
      fun cur _ => .ofOption_bind ht.wf.stop fun cur' _ => ?_)
    refine keeps_modify_bind ht.wf rfl (fun _ _ r => ⟨r.empty, r.pi⟩)
      fun h1 => .when (.refl h1) fun _ => chooseCkpt_keeps h1 i
  refine .bind kept_composes (.when (.refl ht.wf) fun _ => .get_bind ?_) fun _ u hu => ?_
  · refine .ofOption_bind ht.wf.stop fun k _ =>
      keeps_modify_bind ht.wf rfl (fun _ _ r => ⟨r.empty, r.pi⟩) fun h1 => ?_
    exact .when (.refl h1) fun _ => chooseCkpt_keeps h1 _
  have hp' : u.isPrimary V = true := (hu.isPrimary.trans ht.isPrimary).trans hp
  refine .get_bind (.when (.refl hu.wf) fun _ =>
    .bind kept_composes (summarizeReqs_keeps hu.wf hp' vc) fun _ w hw => ?_)
  exact keeps_modify hw.wf (by simp [core]) fun _ _ r => ⟨r.empty, r.pi⟩

theorem addToNewView_keeps (h : Wf V s) (hp : s.isPrimary V = true) (vc : ViewChange) :
    Keeps V (addToNewView V vc) s :=
  .get_bind (.ofOption_bind h.stop fun _ _ =>
    keeps_modify_bind h rfl (fun _ _ r => ⟨r.empty, r.pi⟩) fun h1 =>
    summarize_keeps h1 hp vc)

/-! ## The backup -/

/-- The fold counts the replicas other than `cid`. -/
theorem ckptEvidence_fold {cid : Nat} {d : Digest} (l : List Nat) {k e : Nat × Nat}
    (h : l.foldlM (fun k i =>
      match s.vcOf i with
      | some vc =>
        if i = cid then some k
        else do
          let c ← vc.ckpt V.cfg.P s.min
          some (if c = some d then k.1 + 1 else k.1, if vc.ls ≤ s.min then k.2 + 1 else k.2)
      | none => some k) k = some e) :
    e.1 ≤ k.1 + l.countP (fun i =>
      ((s.vcOf i).any fun vc => vc.ckpt V.cfg.P s.min == some (some d)) && !(i == cid)) ∧
    e.2 ≤ k.2 + l.countP fun i => ((s.vcOf i).any fun vc => decide (vc.ls ≤ s.min)) &&
      !(i == cid) := by
  induction l generalizing k with
  | nil =>
    simp only [List.foldlM_nil, Option.pure_def, Option.some.injEq] at h
    simp [h]
  | cons i l ih =>
    simp only [List.foldlM_cons, Option.bind_eq_bind, Option.bind_eq_some_iff] at h
    obtain ⟨k', hk', h⟩ := h
    obtain ⟨h1, h2⟩ := ih h
    rw [List.countP_cons, List.countP_cons]
    split at hk'
    · rename_i vc hvc
      split at hk'
      · cases hk'
        exact ⟨by omega, by omega⟩
      · rename_i hne
        simp only [Option.bind_eq_some_iff] at hk'
        obtain ⟨c, hc, hk'⟩ := hk'
        cases hk'
        have hb : (i == cid) = false := by simpa using hne
        simp only [hvc, Option.any_some, hb, hc, Bool.not_false, Bool.and_true,
          decide_eq_true_eq, beq_iff_eq, Option.some.injEq]
        simp only at h1 h2
        refine ⟨?_, ?_⟩
        · split at h1
          · rw [if_pos ‹_›]
            omega
          · rw [if_neg ‹_›]
            omega
        · split at h2
          · rw [if_pos ‹_›]
            omega
          · rw [if_neg ‹_›]
            omega
    · cases hk'
      exact ⟨by omega, by omega⟩

/-- All replicas with `p` are `cid` and the others. -/
theorem countP_other {n cid : Nat} {p : Nat → Bool} (hp : p cid = true) (hlt : cid < n) :
    (List.range n).countP p = (List.range n).countP (fun i => p i && !(i == cid)) + 1 := by
  have hins := Count.countP_insert (P := fun i => p i && !(i == cid)) (Q := p)
    List.nodup_range (List.mem_range.2 hlt) (by simp) fun i hi => by simp [hi]
  rwa [hp, if_pos rfl] at hins

/-- `n_proofs` counts view-changes with the checkpoint. -/
theorem ckptEvidence_proofs {cid : Nat} {d : Digest} {e : Nat × Nat} {m : ViewChange}
    (hcid : s.vcOf cid = some m) (hm : m.ckpt V.cfg.P s.min = some (some d)) (hlt : cid < V.cfg.n)
    (he : ckptEvidence V s cid d = some e) :
    e.1 ≤ (List.range V.cfg.n).countP fun i =>
      (s.vcOf i).any fun vc => vc.ckpt V.cfg.P s.min == some (some d) := by
  rw [countP_other (by simp [hcid, hm]) hlt, Nat.add_comm]
  exact (ckptEvidence_fold _ he).1

/-- `n_le` counts view-changes whose stable checkpoint is at most `min`. -/
theorem ckptEvidence_le {cid : Nat} {d : Digest} {e : Nat × Nat} {m : ViewChange}
    (hcid : s.vcOf cid = some m) (hm : m.ls ≤ s.min) (hlt : cid < V.cfg.n)
    (he : ckptEvidence V s cid d = some e) :
    e.2 ≤ (List.range V.cfg.n).countP fun i => (s.vcOf i).any fun vc => decide (vc.ls ≤ s.min) := by
  rw [countP_other (by simp [hcid, hm]) hlt, Nat.add_comm]
  exact (ckptEvidence_fold _ he).2

theorem checkReq_keeps (h : Wf V s) (hc : s.chosenCkpt.isSome = true)
    (hp : s.isPrimary V = false) (i : Int) :
    Keeps V (checkReq V i) s := by
  refine .get_bind (.ofOption_bind h.stop fun vc _ => .ite (fun _ => .pure (.refl h)) fun _ => ?_)
  refine .ofOption_bind h.stop fun k _ => .ofOption_bind h.stop
    fun q _ => .ofOption_bind h.stop fun cur _ => ?_
  refine keeps_modify_bind h rfl (fun _ hp' => absurd hp' (by simp [hp])) fun h1 =>
    .ite (fun _ => ?_) fun _ => .pure (.refl h1)
  exact .bind kept_composes (checkComp_keeps h1 i 0 fun _ => hc) fun _ t ht => .pure (.refl ht.wf)

/-- The part of `check_new_view` from the check of `nv->max()` on. -/
theorem checkMax_keeps (h : Wf V s) (hc : s.chosenCkpt.isSome = true) (hi : s.isComplete = false)
    (hp : s.isPrimary V = false) (d : Digest) (nv : NewView) : Keeps V (checkMax V d nv) s := by
  have hb : ∀ {b : Prop}, s.isPrimary V = true → b := fun hp' => absurd hp' (by simp [hp])
  refine .get_bind (.ite (fun _ => .pure (.refl h))
    fun _ => keeps_modify_bind h rfl (fun _ hp' => hb hp') fun h1 => ?_)
  refine .ite (fun _ => ?_) fun _ => ?_
  · have hq := fun hb => h1.quorum hb (.inl hc)
    refine Reaches.modify_bind trivial
      (Reaches.get_bind (Reaches.ofOption_bind (lost_complete h1 hq) fun ks _ => ?_))
    refine Reaches.modify_bind trivial (Reaches.pure ?_)
    exact kept_complete h1 hi (fun _ => hc) (b := s.nvSent) (fun hp' => hb hp') (by simp [core])
      fun r => ⟨r.empty, r.pi⟩
  · refine keeps_modify_bind h1 rfl (fun _ hp' => hb hp') fun h2 => .get_bind ?_
    refine .bind kept_composes (.eachUntil kept_composes (.refl h2) (fun i t ht => ?_) _)
      fun _ t ht => .pure (.refl ht.wf)
    exact checkReq_keeps ht.wf (ht.chosen hc) (ht.isPrimary.trans hp) i

theorem checkNewView_keeps (h : Wf V s) (hi : s.isComplete = false) :
    Keeps V (checkNewView V) s := by
  refine .get_bind (.assert_bind h.stop fun hp => ?_)
  have hp : s.isPrimary V = false := by simpa using hp
  refine .ofOption_bind h.stop fun nv hnv => .ofOption_bind h.stop
    fun cid hcid => .ofOption_bind h.stop fun vc hvc => ?_
  have hb : ∀ {b : Prop}, s.isPrimary V = true → b := fun hp' => absurd hp' (by simp [hp])
  refine keeps_modify_bind h rfl (fun _ hp' => hb hp')
    fun h1 => .ite (fun _ => .pure (.refl h1)) fun _ => ?_
  refine keeps_modify_bind h1 rfl (fun _ hp' => hb hp')
    fun h2 => .ofOption_bind h2.stop fun c _ => ?_
  cases c with
  | none => exact .pure (.refl h2)
  | some d =>
    refine .get_bind (.ofOption_bind h2.stop fun e he =>
      .ite (fun _ => .pure (.refl h2)) fun hle => ?_)
    -- the picked view-change is there, so `n_le` bounds those that are
    have hpick : s.vcOf cid.toNat = some vc := by
      simp only [pickedVC, hnv, hcid, Option.bind_eq_bind, Option.bind_some] at hvc
      split at hvc
      · exact hvc
      · cases hvc
    have hnf : V.cfg.nf ≤ s.present V.cfg := by
      have h1 := ckptEvidence_le (by exact hpick) le_rfl (h.range _ _ hpick).2.1 he
      have h2 : ¬e.2 < V.cfg.nf := fun hlt => hle (by simp [hlt])
      refine ((not_lt.1 h2).trans h1).trans (List.countP_mono_left fun i _ hi => ?_)
      obtain ⟨m, hm, -⟩ := (Option.any_eq_true _ _).1 hi
      exact Option.isSome_of_eq_some hm
    have hk := kept_chosen (t := { s with min := vc.ls, base := vc.ls + 1, chosenCkpt := some 0 })
      h2 (fun _ => hnf) rfl
      fun hp' => hb hp'
    refine .modify_bind kept_composes hk (checkMax_keeps hk.wf ?_ ?_ ?_ d nv)
    exacts [rfl, hi, hp]

/-! ## Messages -/

/-- What an operation keeps that may store the view-change `m`. -/
structure Stores (V : NVEnv) (m : ViewChange) (verified : Bool) (s t : NVInfo) : Prop where
  wf : Wf V t
  v : t.v = s.v
  vcOf : ∀ i x, t.vcOf i = some x → s.vcOf i = some x ∨
    i = m.id ∧ x = m ∧ m.v = s.v ∧ verified = true
  complete : s.isComplete = true → t.isComplete = true
  calm : s.isComplete = true → pnvCalls t.calls = pnvCalls s.calls
  called : t.isComplete = true → s.isComplete = true ∨ pnvCalls t.calls = 1

theorem Kept.stores {m : ViewChange} {verified : Bool} (h : Kept V s t) : Stores V m verified s t :=
  ⟨h.wf, h.v, fun i x hx => .inl (by rw [← h.vcOf]; exact hx), h.complete, h.calm, h.called⟩

/-- Where such an operation stops. -/
def StoreLost (V : NVEnv) (m : ViewChange) (verified : Bool) (s t : NVInfo) : Prop :=
  Stores V m verified s t ∨ s.isComplete = false ∧ pnvCalls t.calls = 0 ∧ t.v = s.v ∧
    (∀ i x, t.vcOf i = some x → s.vcOf i = some x ∨ i = m.id ∧
      x = m ∧ m.v = s.v ∧ verified = true) ∧
    (s.isPrimary V = false → V.cfg.nf ≤ t.present V.cfg)

theorem Stores.trans {m : ViewChange} {verified : Bool} (h : Stores V m verified s t)
    (h' : Kept V t u) :
    Stores V m verified s u :=
  ⟨h'.wf, h'.v.trans h.v, fun i x hx => h.vcOf i x (by rw [← h'.vcOf]; exact hx),
    fun hs => h'.complete (h.complete hs),
    fun hs => (h'.calm (h.complete hs)).trans (h.calm hs),
    fun hu => (h'.called hu).elim (fun ht => (h.called ht).imp id
      fun h1 => (h'.calm ht).trans h1) .inr⟩

/-- Storing a view-change keeps `Wf`: there are more of them. -/
theorem wf_store (h : Wf V s) (m : ViewChange) (hm : m.id < V.cfg.n) (hv : m.v = s.v)
    (hn : s.vcOf m.id = none) (k : Nat) :
    Wf V { s with vcs := Function.update s.vcs m.id { s.vcs m.id with vc := some m },
                  vcCur := k } := by
  set t : NVInfo := { s with vcs := Function.update s.vcs m.id { s.vcs m.id with vc := some m },
                             vcCur := k } with ht
  have hvc : ∀ i, i ≠ m.id → t.vcOf i = s.vcOf i := fun i hi => by simp [ht, NVInfo.vcOf, hi]
  have hle : s.present V.cfg ≤ t.present V.cfg := by
    refine List.countP_mono_left fun i _ hi => ?_
    have hne : i ≠ m.id := by
      rintro rfl
      simp [hn] at hi
    rw [hvc i hne]
    exact hi
  refine ⟨?_, fun hb hc => (h.quorum hb hc).trans hle, ?_, h.once, h.complete, h.sent,
    fun hV hb => ⟨(h.rows hV hb).empty, (h.rows hV hb).pi⟩⟩
  · intro i x hx
    by_cases hne : i = m.id
    · subst hne
      obtain rfl : m = x := by simpa [ht, NVInfo.vcOf] using hx
      exact ⟨rfl, hm, hv⟩
    · rw [hvc i hne] at hx
      exact h.range i x hx
  · intro hb i
    have hack : (t.vcs i).ackCount = (s.vcs i).ackCount := by
      by_cases hne : i = m.id
      · subst hne; simp [ht]
      · simp [ht, hne]
    rw [hack]
    exact h.acks hb i

theorem stored_keeps (h : Wf V s) (hi : s.isComplete = false) (m : ViewChange) :
    Keeps V (stored V m) s := by
  refine .get_bind (.ite (fun hp => .when (.refl h) fun _ => addToNewView_keeps h hp m)
    fun hp => ?_)
  refine .when (.refl h) fun _ => .bind kept_composes (checkNewView_keeps h hi)
    fun _ t ht => .pure (.refl ht.wf)

/-- With `f = 0` there is one replica, and it is every view's primary. -/
theorem f_pos_of_backup (hid : V.id < V.cfg.n) (hp : s.isPrimary V = false) : 0 < V.cfg.f := by
  by_contra hf
  have hn : V.cfg.n = 1 := by unfold Cfg.n; omega
  have h1 := V.cfg.primary_lt s.v
  have h2 : V.cfg.primary s.v ≠ V.id := by simpa [NVInfo.isPrimary] using hp
  omega

/-- **`add(View_change*)`** stores only a verified view-change of the view: a backup has counted no
acknowledgement for any other. -/
theorem addViewChange_stores (hid : V.id < V.cfg.n) (h : Wf V s) (m : ViewChange)
    (verified digestOk : Bool) :
    Ensures (addViewChange V m verified digestOk) s (fun _ t => Stores V m verified s t)
      (fun t => StoreLost V m verified s t) := by
  have hs : Stores V m verified s s := (Kept.refl h).stores
  refine Reaches.get_bind (Reaches.assert_bind (.inl hs) fun ha => ?_)
  obtain ⟨hv, hm⟩ : m.v = s.v ∧ m.id < V.cfg.n := by simpa using ha
  refine Reaches.ite (fun _ => Reaches.pure hs)
    fun hnew => Reaches.ofOption_bind (.inl hs) fun named _ => ?_
  obtain ⟨hnone, hi⟩ : s.vcOf m.id = none ∧ s.isComplete = false := by simpa using hnew
  refine Reaches.ite (fun _ => Reaches.pure hs)
    fun _ => Reaches.ite (fun _ => Reaches.pure hs) fun hver => ?_
  have hver : verified = true := by
    by_contra hne
    have hne : verified = false := by simpa using hne
    simp only [hne, Bool.not_false, Bool.true_and, Bool.or_eq_true,
      not_or, decide_eq_true_eq] at hver
    have hp : s.isPrimary V = false := by simpa using hver.1.1
    have := f_pos_of_backup hid hp
    have := h.acks hp m.id
    omega
  have hw := wf_store h m hm hv hnone (s.vcCur + 1)
  have hst : Stores V m verified s
      { s with vcs := Function.update s.vcs m.id { s.vcs m.id with vc := some m },
               vcCur := s.vcCur + 1 } := by
    refine ⟨hw, rfl, fun i x hx => ?_, id, fun _ => rfl, .inl⟩
    by_cases hne : i = m.id
    · subst hne
      have hx : m = x := by simpa [NVInfo.vcOf] using hx
      exact .inr ⟨rfl, hx.symm, hv, hver⟩
    · exact .inl (by simpa [NVInfo.vcOf, hne] using hx)
  refine Reaches.modify_bind trivial (Reaches.bind (Q := fun _ t => Stores V m verified s t) ?_
    fun _ t _ ht => Reaches.pure ht)
  refine Reaches.weaken (Reaches.mono (stored_keeps hw hi m)
    fun _ t ht => hst.trans ht) (fun _ _ h => h) fun _ t ht => ?_
  rcases ht with ht | ⟨-, hcalls, hv', hvc, hq⟩
  · exact .inl (hst.trans ht)
  · refine .inr ⟨hi, hcalls, hv', fun i x hx => hst.vcOf i x (by rw [← hvc]; exact hx), ?_⟩
    rw [present, hvc]
    exact hq

/-- A view-change that is turned down changes nothing. -/
theorem addViewChange_false (m : ViewChange) (verified digestOk : Bool) :
    Ensures (addViewChange V m verified digestOk) s (fun b t => b = false → t = s)
      fun _ => True := by
  refine Reaches.get_bind (Reaches.assert_bind trivial
    fun _ => Reaches.ite (fun _ => Reaches.pure fun _ => rfl) fun _ => ?_)
  refine Reaches.ofOption_bind trivial fun named _ =>
    Reaches.ite (fun _ => Reaches.pure fun _ => rfl) fun _ => ?_
  refine Reaches.ite (fun _ => Reaches.pure fun _ => rfl) fun _ => Reaches.modify_bind trivial ?_
  refine Ensures.bind (Q := fun _ _ => True) (Ensures.of_result (fun _ _ => trivial)
    fun _ => trivial) fun _ _ _ => ?_
  exact Reaches.pure fun hb => by cases hb

/-- A backup returns before it counts. -/
theorem addAck_keeps (h : Wf V s) (m : ViewChangeAck) : Keeps V (addAck V m) s := by
  refine .get_bind (.assert_bind h.stop fun _ => .ite (fun _ => .pure (.refl h)) fun _ => ?_)
  refine .ofOption_bind h.stop fun nv _ => ?_
  cases hd : ackDigest V s nv m.vcid with
  | none => exact .pure (.refl h)
  | some d =>
    refine .bind kept_composes (.when (.refl h) fun hc => ?_) fun _ t ht => .pure (.refl ht.wf)
    have hp : s.isPrimary V = true := by
      by_contra hp
      simp only [ackDigest, hp, if_false] at hd
      simp [hd] at hc
    -- the count of a primary does not matter to `Wf`
    have hk :
      Kept V s { s with vcs := Function.update s.vcs m.vcid (VCInfo.ack (s.vcs m.vcid) m.id) } := by
      have hvc : NVInfo.vcOf { s with
        vcs := Function.update s.vcs m.vcid (VCInfo.ack (s.vcs m.vcid) m.id) } = s.vcOf := by
        funext i
        by_cases hi : i = m.vcid
        · subst hi; simp [NVInfo.vcOf, VCInfo.ack]
        · simp [NVInfo.vcOf, hi]
      have hp' : ∀ b, s.isPrimary V = false → b := fun _ hb => by simp [hp] at hb
      exact ⟨⟨by rw [hvc]; exact h.range, fun hb => hp' _ hb,
        fun hb => hp' _ hb, h.once, h.complete, h.sent,
        fun hV hb => ⟨(h.rows hV hb).empty, (h.rows hV hb).pi⟩⟩,
          rfl, hvc, id, id, fun _ => rfl, .inl⟩
    refine .modify_bind kept_composes hk (.get_bind (.when (.refl hk.wf) fun _ => ?_))
    exact .ofOption_bind hk.wf.stop fun vc _ => addToNewView_keeps hk.wf hp vc

theorem chosen_of_open {n : Int} (ho : s.open' n = some true) : s.chosenCkpt.isSome = true := by
  unfold open' at ho
  split at ho
  · rename_i hc
    exact hc.1
  · simp at ho

theorem addMissing_keeps (h : Wf V s) (pp : PrePrepareMsg) (digestOk : Bool) :
    Keeps V (addMissing V pp digestOk) s := by
  refine .get_bind (.ofOption_bind h.stop fun o ho => .when (.refl h) fun hb => ?_)
  subst hb
  have hch := chosen_of_open ho
  refine .ofOption_bind h.stop fun r _ => ?_
  cases r.findIdx? fun cur => cur.d == pp.digest with
  | none => exact .pure (.refl h)
  | some j =>
    refine .ofOption_bind h.stop fun cur hcur => .when (.refl h)
      fun _ => keeps_modify_bind h rfl (fun _ _ rows => ?_) fun h1 => ?_
    · refine rows.setCell hcur fun pp' hpp => ?_
      cases hpp
      exact ⟨rfl, rfl⟩
    · exact checkComp_keeps h1 _ _ fun _ => hch

theorem addMissingPrepare_keeps (h : Wf V s) (p : Prepare) : Keeps V (addMissingPrepare V p) s := by
  refine .get_bind (.ofOption_bind h.stop fun o ho => .when (.refl h) fun hb => ?_)
  subst hb
  have hch := chosen_of_open ho
  refine .ofOption_bind h.stop fun r _ => ?_
  cases r.findIdx? fun cur => cur.d == p.digest with
  | none => exact .pure (.refl h)
  | some j =>
    refine .ofOption_bind h.stop fun cur hcur => .when (.refl h)
      fun _ => .assert_bind h.stop fun _ => ?_
    refine .when (.refl h) fun _ => keeps_modify_bind h rfl (fun _ _ rows => ?_) fun h1 => ?_
    · exact rows.setCell hcur fun pp hpp => rows.cell_pi hcur hpp
    · exact checkComp_keeps h1 _ _ fun _ => hch

theorem fetchRequest_keeps (h : Wf V s) (n : Int) : Keeps V (fetchRequest V n) s := by
  refine .get_bind (.ofOption_bind h.stop fun nv _ =>
    .assert_bind h.stop fun _ => .ofOption_bind h.stop fun vc _ => ?_)
  refine .ofOption_bind h.stop fun q _ => .ite (fun _ => ?_) fun _ => .pure (.refl h)
  refine .ofOption_bind h.stop fun c _ => .ofOption_bind h.stop
    fun j _ => .ofOption_bind h.stop fun cur hcur => ?_
  refine .ofOption_bind h.stop fun pp _ => keeps_modify_bind h rfl (fun _ _ rows => ?_)
    fun h1 => .pure (.refl h1)
  exact rows.setCell hcur fun pp' hpp => by cases hpp

/-- A stable checkpoint beyond the new view completes it. -/
theorem markStable_keeps (h : Wf V s) (ls : Int) : Keeps V (markStable V ls) s := by
  refine .get_bind (.when (.refl h) fun hc => ?_)
  obtain ⟨⟨⟨⟨-, hi⟩, hch⟩, -⟩, hp⟩ :
    (((0 < s.v ∧ s.isComplete = false) ∧ s.chosenCkpt.isSome = true) ∧ s.max ≤ ls) ∧
      s.isPrimary V = false := by simpa using hc
  refine .of_ensures (Reaches.modify_bind trivial ?_)
  refine Reaches.modify trivial ?_
  exact kept_complete h hi (fun _ => hch) (b := s.nvSent)
    (fun hp' => by simp [hp] at hp') (by simp [core])
    fun r => ⟨r.empty, r.pi⟩

/-! ## A new view -/

theorem wf_new (calls : List NVCall) (h : pnvCalls calls = 0) (v : Int)
    (nv : Option NewView) (k : Nat) :
    Wf V { new with v := v, nv := nv, vcTarget := k, calls := calls } :=
  ⟨fun _ _ h => by simp [vcOf, new, noVC] at h,
    fun _ h => by simp [new] at h, fun _ _ => rfl, by simp [h], by simp [h],
    fun _ h => by simp [new] at h, fun _ _ => ⟨fun _ => rfl, fun k r _ _ hk => by simp [new] at hk⟩⟩

/-- The `NV_info` of a message that was just added. -/
def started (cfg : Cfg) (m : NewView) (calls : List NVCall) : NVInfo :=
  { new with v := m.v, nv := some m, calls := calls,
             vcTarget := (List.range cfg.n).countP fun i => (m.viewChange cfg i).isSome }

/-- `add(New_view*)` starts again, where the message is for a later view. -/
theorem addNewView_eq (m : NewView) (hz : s.v = 0 → s = { new with calls := s.calls }) :
    addNewView V m s = if m.v ≤ s.v then (some false, s)
      else (some true, started V.cfg m s.calls) := by
  unfold addNewView
  rw [Prog.get_bind_apply]
  split
  · rfl
  · by_cases hv : s.v = 0
    · rw [hz hv]
      simp [Prog.bind_apply, Prog.modify, when, started, new]
    · simp [Prog.bind_apply, Prog.modify, when, started, clear, new, hv]

/-- A primary starts again with its own message. -/
theorem addNewView_clear (hv : 0 < s.v) (hc : s.calls = []) :
    addNewView V (NewView.new s.v) s.clear = (some true, started V.cfg (NewView.new s.v) []) := by
  rw [addNewView_eq _ fun _ => rfl, if_neg]
  · simp [clear, hc]
  · simp only [clear, new, NewView.new]
    omega

/-- What `mark_stale` does: nothing to a complete new view; it clears any other, and a primary then
starts its own one again. -/
def Staled (V : NVEnv) (s : NVInfo) (r : Option ViewChange) (t : NVInfo) : Prop :=
  (s.isComplete = true ∧ t = s ∧ r = none) ∨
  (s.isComplete = false ∧ t = s.clear ∧ r = s.vcOf V.id) ∨
  (s.isComplete = false ∧ 0 < s.v ∧ s.isPrimary V = true ∧
    Wf V t ∧ t.v = s.v ∧ (t.isComplete = true → pnvCalls t.calls = 1) ∧
    r = none)

theorem markStale_staled (hid : V.id < V.cfg.n) (hc : s.calls = []) :
    Ensures (markStale V) s (fun r t => Staled V s r t) 
      (fun t => (∃ r, Staled V s r t) ∨ s.isComplete = false ∧
          0 < s.v ∧ s.isPrimary V = true ∧ pnvCalls t.calls = 0) := by
  refine Reaches.get_bind (Reaches.ite (fun hi => Reaches.pure (.inl ⟨hi, rfl, rfl⟩)) fun hi => ?_)
  have hi : s.isComplete = false := by simpa using hi
  refine Reaches.modify_bind trivial (Reaches.ite (fun hp => ?_)
    fun _ => Reaches.pure (.inr (.inl ⟨hi, rfl, rfl⟩)))
  have hp' : s.isPrimary V = true := by simpa [NVInfo.isPrimary] using hp.2
  have hadd := addNewView_clear (V := V) hp.1 hc
  set u := started V.cfg (NewView.new s.v) [] with hu
  have hwf : Wf V u := wf_new [] rfl _ _ _
  let Q (t : NVInfo) : Prop := Wf V t ∧ t.v = s.v ∧ (t.isComplete = true → pnvCalls t.calls = 1)
  have hst : ∀ {t r}, Q t → r = none → Staled V s r t :=
    fun ht hr => .inr (.inr ⟨hi, hp.1, hp', ht.1, ht.2.1, ht.2.2, hr⟩)
  refine Reaches.bind (Q := fun _ t => Q t) ?_ fun _ t _ ht => Reaches.pure (hst ht rfl)
  refine Reaches.bind (Q := fun _ t => t = u) ?_ ?_
  · refine Ensures.of_result ?_ ?_ <;> simp [hadd]
  · rintro _ _ _ rfl
    refine Reaches.ofOption_bind (.inr ⟨hi, hp.1, hp', rfl⟩) fun vc _ => ?_
    refine Reaches.bind (Q := fun _ t => Q t) ?_ fun _ t _ ht => Reaches.pure ht
    have hQ : ∀ {t}, Stores V vc true u t → Q t :=
      fun ht => ⟨ht.wf, ht.v, fun hc => (ht.called hc).resolve_left Bool.false_ne_true⟩
    refine (addViewChange_stores hid hwf vc true true).imp (fun _ t ht => hQ ht) fun t ht => ?_
    exact ht.imp (fun ht => ⟨none, hst (hQ ht) rfl⟩) fun ht => ⟨hi, hp.1, hp', ht.2.1⟩

/-- With the replica's own view-change alone no checkpoint is chosen. -/
theorem summarize_quiet (hf : 0 < V.cfg.f) (hc : s.calls = []) (hk : s.ckpts = [])
    (hch : s.chosenCkpt = none) (vc : ViewChange) :
    Ensures (summarize V vc) s (fun _ t => t.calls = []) (fun t => t.calls = []) := by
  refine Reaches.get_bind (Reaches.assert_bind hc fun _ => Reaches.ofOption_bind hc fun c _ => ?_)
  simp only [hk, hch, List.length_nil, List.range_zero, List.any_nil]
  refine Reaches.bind (Q := fun _ t => t = s) (Reaches.pure rfl) ?_
  rintro _ _ - rfl
  refine Reaches.bind (Q := fun _ t => t.calls = []) (Reaches.when (fun _ => ?_) fun _ => hc)
    fun _ t _ ht =>
    Reaches.get_bind (Reaches.pure ht)
  refine Reaches.get_bind (Reaches.ofOption_bind hc fun k _ => Reaches.modify_bind trivial ?_)
  refine Reaches.when (fun h => ?_) fun _ => hc
  have hle : V.cfg.nf ≤ 0 + 1 := by
    have := (Bool.and_eq_true_iff.1 h).2
    simpa using this
  unfold Cfg.nf at hle
  omega

/-- Where one replica may fail, the primary's own view-change does not decide the new view. -/
theorem markStale_quiet (hf : 0 < V.cfg.f) (hc : s.calls = []) :
    Ensures (markStale V) s (fun _ t => t.calls = []) (fun t => t.calls = []) := by
  refine Reaches.get_bind (Reaches.ite (fun _ => Reaches.pure hc)
    fun _ => Reaches.modify_bind trivial ?_)
  refine Reaches.ite (fun hp => ?_) fun _ => Reaches.pure hc
  refine Reaches.bind (Q := fun _ t => t.calls = []) ?_ fun _ t _ ht => Reaches.pure ht
  have hadd := addNewView_clear (V := V) hp.1 hc
  refine Reaches.bind (Q := fun _ t => t = started V.cfg (NewView.new s.v) []) ?_ ?_
  · refine Ensures.of_result ?_ ?_ <;> simp [hadd]
  rintro _ _ - rfl
  have hprim : isPrimary V (started V.cfg (NewView.new s.v) []) = true := by
    simp [NVInfo.isPrimary, started, NewView.new, hp.2]
  refine Reaches.ofOption_bind rfl fun vc _ => Reaches.bind (Q := fun _ t => t.calls = []) ?_
    fun _ t _ ht => Reaches.pure ht
  refine Reaches.get_bind (Reaches.assert_bind rfl
    fun _ => Reaches.ite (fun _ => Reaches.pure rfl) fun _ => ?_)
  refine Reaches.ofOption_bind rfl fun named _ =>
    Reaches.ite (fun _ => Reaches.pure rfl) fun _ => ?_
  refine Reaches.ite (fun _ => Reaches.pure rfl) fun _ => Reaches.modify_bind trivial ?_
  refine Reaches.bind (Q := fun _ t => t.calls = [])
    (Reaches.get_bind (Reaches.ite (fun _ => ?_) fun hne => absurd hprim hne))
    fun _ t _ ht => Reaches.pure ht
  refine Reaches.when (fun _ => ?_) fun _ => rfl
  refine Reaches.get_bind (Reaches.ofOption_bind rfl fun nv _ => Reaches.modify_bind trivial ?_)
  exact summarize_quiet hf rfl rfl rfl vc

/-- `Wf` does not depend on what the parent remembers. -/
theorem Wf.env {V' : NVEnv} (h : Wf V s) (hc : V'.cfg = V.cfg) (hi : V'.id = V.id)
    (hV : Finds V) : Wf V' s := by
  have hp : s.isPrimary V' = s.isPrimary V := by simp [NVInfo.isPrimary, hc, hi]
  exact ⟨by rw [hc]; exact h.range, by rw [hp, hc]; exact h.quorum, by rw [hp]; exact h.acks,
    h.once, h.complete,
    by rw [hp]; exact h.sent, by rw [hp]; exact fun _ => h.rows hV⟩

/-- What a complete `NV_info` of the primary returns for a sequence number is for it, in the
view. -/
theorem fetchRequest_result (hV : Finds V) (h : Wf V s) (hp : s.isPrimary V = true) (n : Int) :
    Ensures (fetchRequest V n) s (fun r _ => r.1.view = s.v ∧ r.1.seqno = n) (fun _ => True) := by
  refine Reaches.get_bind (Reaches.ofOption_bind trivial
    fun nv _ => Reaches.assert_bind trivial fun _ => ?_)
  refine Reaches.ofOption_bind trivial fun vc _ => Reaches.ofOption_bind trivial fun q _ => ?_
  refine Reaches.ite (fun _ => ?_) fun _ => Reaches.pure ⟨rfl, rfl⟩
  refine Reaches.ofOption_bind trivial fun c _ => Reaches.ofOption_bind trivial fun j _ => ?_
  refine Reaches.ofOption_bind trivial fun cur hcur =>
    Reaches.ofOption_bind trivial fun pp hpp => ?_
  exact Reaches.modify_bind trivial (Reaches.pure ((h.rows hV hp).cell_pi hcur hpp))

end NVInfo

end TinyBFT
