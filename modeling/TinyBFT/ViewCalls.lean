import TinyBFT.NVCalls
import TinyBFT.ViewInfo

/-!
# When a `View_info` asks for `process_new_view`

Only the `NV_info` of the current view can become complete: a replica keeps at most `f + 1`
view-changes for a later view, as it joins a view with the `f + 1`st one (`Inv.few`, kept by
`Replica::handle(View_change*)`). So an operation asks for `process_new_view` at most once, and only
where the current view had no new view before (`Kept`).
-/

namespace TinyBFT

namespace ViewInfo

open Prog (Ensures Reaches Within Composes get modify assert ofOption when each)

def isPnv : Out → Bool
  | .call c => NVInfo.isPnv c
  | .send .. => false

/-- The number of calls of `process_new_view` among `outs`. -/
def pnvOuts (outs : List Out) : Nat := outs.countP isPnv

@[simp] theorem pnvOuts_nil : pnvOuts [] = 0 := rfl

@[simp] theorem pnvOuts_calls (outs : List Out) (calls : List NVCall) :
    pnvOuts (outs ++ calls.map .call) = pnvOuts outs + NVInfo.pnvCalls calls := by
  simp only [pnvOuts, List.countP_append, List.countP_map, NVInfo.pnvCalls]
  rfl

@[simp] theorem pnvOuts_send (outs : List Out) (dest : Option Nat) (m : Msg) :
    pnvOuts (outs ++ [.send dest m]) = pnvOuts outs := by
  simp [pnvOuts, isPnv]

variable (cfg : Cfg) (id : Nat)

/-- A view-change of replica `i` for view `w` is kept. -/
def heldBy (s : ViewInfo) (w : Int) (i : Nat) : Bool :=
  (s.lastVcs i).any (fun m => toInt m.v == w) ||
    ((s.lastNvs (cfg.primary w)).v == w && ((s.lastNvs (cfg.primary w)).vcOf i).isSome)

/-- The number of view-changes for view `w` that are kept. -/
def held (s : ViewInfo) (w : Int) : Nat := (List.range cfg.n).countP (s.heldBy cfg w)

/-- What is known of the views of the replicas. -/
structure Views (s : ViewInfo) : Prop where
  own : s.lastViews id = s.v
  nonneg : ∀ i, 0 ≤ s.lastViews i
  bound : ∀ i, i ≠ id → s.lastViews i < 2 ^ 31
  vcs : ∀ i m, s.lastVcs i = some m → m.id = i ∧ 0 < m.v ∧ toInt m.v ≤ s.lastViews i

structure Inv (s : ViewInfo) : Prop where
  views : Views id s
  few : ∀ w, s.v < w → s.held cfg w ≤ cfg.f + 1
  zero : ∀ j, (s.lastNvs j).v = 0 → s.lastNvs j = NVInfo.new
  calls : ∀ j, (s.lastNvs j).calls = []
  prim : ∀ j, (s.lastNvs j).v ≠ 0 → 0 < (s.lastNvs j).v ∧
    s.v ≤ (s.lastNvs j).v ∧ cfg.primary (s.lastNvs j).v = j
  own : (s.lastNvs id).v ≤ s.v
  wf : ∀ j, NVInfo.Wf (s.nvEnv cfg id) (s.lastNvs j)
  /-- The view-changes for a later view come from replicas that are in it. -/
  stored : ∀ j, s.v < (s.lastNvs j).v → ∀ i x, (s.lastNvs j).vcOf i = some x →
    (s.lastNvs j).v ≤ s.lastViews i

/-- The invariant between two operations and inside one. -/
structure Ok (s : ViewInfo) : Prop where
  inv : Inv cfg id s
  once : pnvOuts s.outs ≤ 1
  complete : pnvOuts s.outs = 1 → s.hasNewView cfg s.v = true

/-- What an operation that stays in the view keeps. `K` is the condition under which a complete new
view stays, `A` the one under which no view-change for a later view is stored. -/
structure Kept (K A : Prop) (s t : ViewInfo) : Prop where
  ok : Ok cfg id t
  v : t.v = s.v
  held : A → ∀ w, s.v < w → t.held cfg w ≤ s.held cfg w
  keeps : K → s.hasNewView cfg s.v = true → t.hasNewView cfg t.v = true ∧
    pnvOuts t.outs = pnvOuts s.outs
  /-- A new view that becomes complete asks for `process_new_view`. -/
  called : K → t.hasNewView cfg t.v = true → s.hasNewView cfg s.v = true ∨ pnvOuts t.outs = 1

/-- Where it stops. -/
def Lost (K A : Prop) (s t : ViewInfo) : Prop := Kept cfg id K A s t ∨ pnvOuts t.outs = 0

variable {cfg id} {K A : Prop} {s t u : ViewInfo} {j : Nat}

theorem Kept.refl (h : Ok cfg id s) : Kept cfg id K A s s :=
  ⟨h, rfl, fun _ _ _ => le_rfl, fun _ hs => ⟨hs, rfl⟩, fun _ => .inl⟩

theorem Kept.trans (h : Kept cfg id K A s t) (h' : Kept cfg id K A t u) : Kept cfg id K A s u where
  ok := h'.ok
  v := h'.v.trans h.v
  held a w hw := (h'.held a w (h.v ▸ hw)).trans (h.held a w hw)
  keeps k hs :=
    have ht := h.keeps k hs
    have hu := h'.keeps k ht.1
    ⟨hu.1, hu.2.trans ht.2⟩
  called k hu := (h'.called k hu).elim (fun ht => (h.called k ht).imp (fun hs => hs)
    fun h1 => (h'.keeps k ht).2.trans h1) .inr

theorem kept_composes : Composes (Kept cfg id K A) (Lost cfg id K A) where
  step := Kept.trans
  crash h h' := h'.imp h.trans fun h => h

theorem Ok.stop (h : Ok cfg id s) : Lost cfg id K A s s := .inl (.refl h)

/-! ## Later views -/

theorem nv_backup (h : Inv cfg id s) (hj : s.v < (s.lastNvs j).v) (hv : 0 ≤ s.v) :
    cfg.primary (s.lastNvs j).v ≠ id := by
  obtain ⟨-, -, hprim⟩ := h.prim j (by omega)
  rw [hprim]
  rintro rfl
  have := h.own
  omega

theorem Inv.nonneg (h : Inv cfg id s) : 0 ≤ s.v := h.views.own ▸ h.views.nonneg id

/-- The view-changes of an `NV_info` are kept. -/
theorem present_le_held {t : NVInfo} (ht : s.lastNvs (cfg.primary t.v) = t) :
    t.present cfg ≤ s.held cfg t.v := by
  refine List.countP_mono_left fun i _ hi => ?_
  unfold heldBy
  rw [ht]
  simp [hi]

/-- A view-change for a later view that is kept comes from a replica that is in it, or in a later
one. -/
theorem Inv.le_lastViews (h : Inv cfg id s) {w : Int} (hw : s.v < w) {i : Nat}
    (hi : s.heldBy cfg w i = true) :
    w ≤ s.lastViews i := by
  simp only [heldBy, Bool.or_eq_true, Bool.and_eq_true, Option.any_eq_true, beq_iff_eq] at hi
  rcases hi with ⟨m, hm, rfl⟩ | ⟨hv, hi⟩
  · exact (h.views.vcs i m hm).2.2
  · obtain ⟨x, hx⟩ := Option.isSome_iff_exists.1 hi
    have := h.stored (cfg.primary w) (by omega) i x hx
    omega

/-- **No new view is decided for a later view.** -/
theorem not_decided_of_later (hid : id < cfg.n) {V : NVEnv} (hc : V.cfg = cfg)
    (hi : V.id = id) {t : NVInfo} (hp : cfg.primary t.v ≠ id) (hle : t.present cfg ≤ cfg.f + 1) :
    ¬V.cfg.nf ≤ t.present V.cfg := by
  have hf : 0 < V.cfg.f := by
    refine NVInfo.f_pos_of_backup (s := t) (by rw [hc, hi]; exact hid) ?_
    rw [NVInfo.isPrimary, hc, hi]
    simpa using hp
  rw [hc] at hf ⊢
  unfold Cfg.nf
  omega

/-! ## Operations of one `NV_info` -/

/-- The state after an operation left the `NV_info` of `j` as `t`. -/
def put (s : ViewInfo) (j : Nat) (t : NVInfo) : ViewInfo :=
  { s with lastNvs := Function.update s.lastNvs j { t with calls := [] },
           outs := s.outs ++ t.calls.map .call }

theorem onNv_apply {α : Type} (op : NVEnv → Prog NVInfo α) :
    onNv cfg id j op s = ((op (s.nvEnv cfg id) (s.lastNvs j)).1,
        put s j (op (s.nvEnv cfg id) (s.lastNvs j)).2) := rfl

@[simp] theorem put_lastNvs_self (t : NVInfo) :
    (put s j t).lastNvs j = { t with calls := [] } := by simp [put]

theorem put_lastNvs_of_ne {k : Nat} (t : NVInfo) (h : k ≠ j) :
    (put s j t).lastNvs k = s.lastNvs k := by simp [put, h]

@[simp] theorem pnvOuts_put (t : NVInfo) :
    pnvOuts (put s j t).outs = pnvOuts s.outs + NVInfo.pnvCalls t.calls := by
  simp [put]

theorem nvEnv_finds (s : ViewInfo) : NVInfo.Finds (s.nvEnv cfg id) := by
  intro n d m hm
  simp only [nvEnv, prePrepareOf] at hm
  split at hm
  · cases hm
  · split at hm
    · cases hm
    · split at hm
      · split at hm
        · cases hm
          rename_i hc
          exact hc.2
        · cases hm
      · cases hm

/-- The pending calls leave the object when they are made. -/
theorem wf_calls {V V' : NVEnv} {t : NVInfo} (h : NVInfo.Wf V t) (hc : V'.cfg = V.cfg)
    (hi : V'.id = V.id) (hV : NVInfo.Finds V) : NVInfo.Wf V' { t with calls := [] } := by
  have h' := h.env hc hi hV
  exact ⟨h'.range, h'.quorum, h'.acks, by simp, by simp,
    h'.sent, fun hV hp => ⟨(h'.rows hV hp).empty, (h'.rows hV hp).pi⟩⟩

/-- What is new in an `NV_info` for a later view was kept before. -/
theorem held_put_le {t : NVInfo}
    (h : s.v < t.v → ∀ i, (t.vcOf i).isSome = true → s.heldBy cfg t.v i = true) :
    ∀ w, s.v < w → (put s j t).held cfg w ≤ s.held cfg w := by
  intro w hw
  refine List.countP_mono_left fun i _ hi => ?_
  by_cases hj : cfg.primary w = j
  · subst hj
    simp only [heldBy, put_lastNvs_self, Bool.or_eq_true, Bool.and_eq_true, beq_iff_eq] at hi
    rcases hi with hi | ⟨rfl, hi⟩
    · simp only [heldBy, Bool.or_eq_true]
      exact .inl hi
    · exact h hw i hi
  · simp only [heldBy, put_lastNvs_of_ne t hj] at hi ⊢
    exact hi

theorem put_inv {t : NVInfo} (h : Inv cfg id s) (hw : NVInfo.Wf (s.nvEnv cfg id) t)
    (hprim : t.v ≠ 0 → 0 < t.v ∧ s.v ≤ t.v ∧ cfg.primary t.v = j) (hown : j = id → t.v ≤ s.v)
    (hz : t.v = 0 → ({ t with calls := [] } : NVInfo) = NVInfo.new)
    (hst : s.v < t.v → ∀ i x, t.vcOf i = some x → t.v ≤ s.lastViews i)
    (hfew : ∀ w, s.v < w → (put s j t).held cfg w ≤ cfg.f + 1) : Inv cfg id (put s j t) := by
  have hcase : ∀ {P : Nat → NVInfo → Prop}, P j { t with calls := [] } →
    (∀ k, k ≠ j → P k (s.lastNvs k)) →
      ∀ k, P k ((put s j t).lastNvs k) := by
    intro P h1 h2 k
    by_cases hk : k = j
    · subst hk
      rw [put_lastNvs_self]
      exact h1
    · rw [put_lastNvs_of_ne t hk]
      exact h2 k hk
  refine ⟨⟨h.views.own, h.views.nonneg, h.views.bound, h.views.vcs⟩, hfew, ?_, ?_, ?_, ?_, ?_, ?_⟩
  · exact hcase (P := fun _ nv => nv.v = 0 → nv = NVInfo.new) hz fun k _ => h.zero k
  · exact hcase (P := fun _ nv => nv.calls = []) rfl fun k _ => h.calls k
  · exact hcase (P := fun k nv => nv.v ≠ 0 → 0 < nv.v ∧ s.v ≤ nv.v ∧ cfg.primary nv.v = k) hprim
      fun k _ => h.prim k
  · exact hcase (P := fun k nv => k = id → nv.v ≤ s.v) hown (fun k _ hk => hk ▸ h.own) id rfl
  · exact hcase (P := fun _ nv => NVInfo.Wf ((put s j t).nvEnv cfg id) nv)
      (wf_calls hw rfl rfl s.nvEnv_finds) fun k _ =>
      (h.wf k).env rfl rfl s.nvEnv_finds
  · exact hcase (P := fun _ nv => s.v < nv.v → ∀ i x, nv.vcOf i = some x → nv.v ≤ s.lastViews i) hst
      fun k _ => h.stored k

/-- Only the `NV_info` of the current view becomes complete. -/
theorem current_of_decided (hid : id < cfg.n) (h : Inv cfg id s) {t : NVInfo}
    (hv : t.v = (s.lastNvs j).v) (hnz : t.v ≠ 0) (hpres : s.v < t.v → t.present cfg ≤ cfg.f + 1)
    (hq : t.isPrimary (s.nvEnv cfg id) = false → cfg.nf ≤ t.present cfg) :
    (s.lastNvs j).v = s.v ∧ j = cfg.primary s.v := by
  obtain ⟨hpos, hge, hprim⟩ := h.prim j (hv ▸ hnz)
  rcases (by omega : (s.lastNvs j).v = s.v ∨ s.v < (s.lastNvs j).v) with he | hlt
  · exact ⟨he, by rw [← he, hprim]⟩
  · have hp := nv_backup h hlt h.nonneg
    rw [← hv] at hlt hp
    have hnot := not_decided_of_later hid (V := s.nvEnv cfg id) rfl rfl hp (hpres hlt)
    refine absurd (hq ?_) hnot
    simpa [NVInfo.isPrimary, nvEnv] using hp

theorem hasNewView_put {t : NVInfo} (hcomp : (s.lastNvs j).isComplete = true → t.isComplete = true)
    (h : s.hasNewView cfg s.v = true) : (put s j t).hasNewView cfg (put s j t).v = true := by
  unfold hasNewView at h ⊢
  have hv : (put s j t).v = s.v := rfl
  rw [hv]
  by_cases hj : cfg.primary s.v = j
  · subst hj
    rw [put_lastNvs_self]
    exact hcomp h
  · rw [put_lastNvs_of_ne t hj]
    exact h

theorem present_le_put (h : Inv cfg id s) {t : NVInfo} (hv : t.v = (s.lastNvs j).v)
    (hnz : t.v ≠ 0) :
    t.present cfg ≤ (put s j t).held cfg t.v := by
  have hj := (h.prim j (hv ▸ hnz)).2.2
  rw [← hv] at hj
  refine present_le_held (s := put s j t) (t := { t with calls := [] }) ?_
  rw [hj, put_lastNvs_self]

/-- **An operation of one `NV_info`**, where what it stored comes from replicas in its view. -/
theorem put_kept (hid : id < cfg.n) (h : Ok cfg id s) {t : NVInfo}
    (hw : NVInfo.Wf (s.nvEnv cfg id) t) (hv : t.v = (s.lastNvs j).v)
    (hmono : (s.lastNvs j).isComplete = true → t.isComplete = true)
    (hcalm : (s.lastNvs j).isComplete = true → NVInfo.pnvCalls t.calls = 0)
    (hcalled : t.isComplete = true → (s.lastNvs j).isComplete = true ∨ NVInfo.pnvCalls t.calls = 1)
    (hz : t.v = 0 → ({ t with calls := [] } : NVInfo) = NVInfo.new)
    (hst : s.v < t.v → ∀ i x, t.vcOf i = some x → t.v ≤ s.lastViews i)
    (hfew : ∀ w, s.v < w → (put s j t).held cfg w ≤ cfg.f + 1)
    (hA : A → ∀ w, s.v < w → (put s j t).held cfg w ≤ s.held cfg w) :
    Kept cfg id K A s (put s j t) := by
  have hinv : Inv cfg id (put s j t) := by
    refine put_inv h.inv hw (by rw [hv]; exact h.inv.prim j) (fun hj => ?_) hz hst hfew
    rw [hv, hj]
    exact h.inv.own
  by_cases hp : NVInfo.pnvCalls t.calls = 0
  · refine ⟨⟨hinv, ?_, ?_⟩, rfl, hA, ?_, fun _ hc => .inl ?_⟩
    · simpa [hp] using h.once
    · simp only [pnvOuts_put, hp, Nat.add_zero]
      exact fun h1 => hasNewView_put hmono (h.complete h1)
    · exact fun _ hc => ⟨hasNewView_put hmono hc, by simp [hp]⟩
    · have hv : (put s j t).v = s.v := rfl
      unfold hasNewView at hc ⊢
      rw [hv] at hc
      by_cases hj : cfg.primary s.v = j
      · subst hj
        rw [put_lastNvs_self] at hc
        exact (hcalled hc).resolve_right (by rw [hp]; exact Nat.zero_ne_one)
      · rw [put_lastNvs_of_ne t hj] at hc
        exact hc
  · -- the call is made: this is the `NV_info` of the current view, and it was not complete
    have hone : NVInfo.pnvCalls t.calls = 1 := by
      have := hw.once
      omega
    have hcomp := hw.complete hone
    have hi : ¬(s.lastNvs j).isComplete = true := fun hc => hp (hcalm hc)
    have hnz : t.v ≠ 0 := by
      intro h0
      have := congrArg NVInfo.isComplete (hz h0)
      simp [hcomp, NVInfo.new] at this
    have hpres : s.v < t.v → t.present cfg ≤ cfg.f + 1 :=
      fun hlt => (present_le_put h.inv hv hnz).trans (hfew _ hlt)
    obtain ⟨-, hj⟩ := current_of_decided hid h.inv hv hnz hpres fun hb => hw.quorum hb (.inr hcomp)
    have hno : ¬s.hasNewView cfg s.v = true := by
      unfold hasNewView
      rw [← hj]
      exact hi
    have houts : pnvOuts s.outs = 0 := by
      have h1 := h.once
      have h2 : pnvOuts s.outs ≠ 1 := fun h1 => hno (h.complete h1)
      omega
    have hsum : pnvOuts (put s j t).outs = 1 := by simp [houts, hone]
    refine ⟨⟨hinv, hsum.le, fun _ => ?_⟩, rfl, hA, fun _ hc => absurd hc hno, fun _ _ => .inr hsum⟩
    · unfold hasNewView
      have hv : (put s j t).v = s.v := rfl
      rw [hv, ← hj, put_lastNvs_self]
      exact hcomp

/-- An operation that stops on the way from completing the new view to the call. -/
theorem put_lost (hid : id < cfg.n) (h : Ok cfg id s) {t : NVInfo}
    (hi : (s.lastNvs j).isComplete = false) (hcalls : NVInfo.pnvCalls t.calls = 0)
    (hv : t.v = (s.lastNvs j).v) (hnz : t.v ≠ 0) (hpres : s.v < t.v → t.present cfg ≤ cfg.f + 1)
    (hq : t.isPrimary (s.nvEnv cfg id) = false → cfg.nf ≤ t.present cfg) :
    pnvOuts (put s j t).outs = 0 := by
  obtain ⟨-, hj⟩ := current_of_decided hid h.inv hv hnz hpres hq
  have hno : ¬s.hasNewView cfg s.v = true := by
    unfold hasNewView
    rw [← hj, hi]
    simp
  have h1 := h.once
  have h2 : pnvOuts s.outs ≠ 1 := fun h1 => hno (h.complete h1)
  simp only [pnvOuts_put, hcalls]
  omega

theorem Inv.heldBy_of_stored (h : Inv cfg id s) (hlt : s.v < (s.lastNvs j).v) {i : Nat}
    (hi : ((s.lastNvs j).vcOf i).isSome = true) : s.heldBy cfg (s.lastNvs j).v i = true := by
  have := h.nonneg
  have hj := (h.prim j (by omega)).2.2
  simp [heldBy, hj, hi]

/-- Storing a view-change of a replica that is in the view. -/
theorem onNv_stores {α : Type} (m : ViewChange) (verified : Bool) (hid : id < cfg.n)
    (h : Ok cfg id s) {op : NVEnv → Prog NVInfo α}
    (hop : Ensures (op (s.nvEnv cfg id)) (s.lastNvs j)
      (fun _ t => NVInfo.Stores (s.nvEnv cfg id) m verified (s.lastNvs j) t)
      (fun t => NVInfo.StoreLost (s.nvEnv cfg id) m verified (s.lastNvs j) t))
    (hz : s.lastNvs j = NVInfo.new → (op (s.nvEnv cfg id) NVInfo.new).2 = NVInfo.new)
    (hm : verified = true → m.v = (s.lastNvs j).v → s.v < (s.lastNvs j).v →
      (s.lastNvs j).v ≤ s.lastViews m.id ∧ s.heldBy cfg (s.lastNvs j).v m.id = true) :
    Within (Kept cfg id K A) (Lost cfg id K A) (onNv cfg id j op) s := by
  obtain ⟨h1, h2⟩ := hop.result
  set V := s.nvEnv cfg id with hV
  set t := (op V (s.lastNvs j)).2 with ht
  have hzero : t.v = (s.lastNvs j).v → t.v = 0 → t = NVInfo.new := by
    intro hv h0
    have hnew := h.inv.zero j (hv ▸ h0)
    rw [ht, hnew]
    exact hz hnew
  have hstored : (∀ i x, t.vcOf i = some x → (s.lastNvs j).vcOf i = some x ∨
      i = m.id ∧ x = m ∧ m.v = (s.lastNvs j).v ∧ verified = true) → t.v = (s.lastNvs j).v →
      s.v < t.v → ∀ i x, t.vcOf i = some x → t.v ≤ s.lastViews i ∧ s.heldBy cfg t.v i = true := by
    intro hvc hv hlt i x hx
    rw [hv] at hlt ⊢
    rcases hvc i x hx with hx | ⟨rfl, -, hmv, hver⟩
    · exact ⟨h.inv.stored j hlt i x hx, h.inv.heldBy_of_stored hlt (Option.isSome_of_eq_some hx)⟩
    · exact hm hver hmv hlt
  have hheld :
    (s.v < t.v → ∀ i x, t.vcOf i = some x → t.v ≤ s.lastViews i ∧ s.heldBy cfg t.v i = true) →
      ∀ w, s.v < w → (put s j t).held cfg w ≤ s.held cfg w :=
        fun hst => held_put_le fun hlt i hi => by
    obtain ⟨x, hx⟩ := Option.isSome_iff_exists.1 hi
    exact (hst hlt i x hx).2
  have hkept : NVInfo.Stores V m verified (s.lastNvs j) t → Kept cfg id K A s (put s j t) := by
    intro hs
    have hcalls : NVInfo.pnvCalls (s.lastNvs j).calls = 0 := by rw [h.inv.calls j]; rfl
    have hst := hstored hs.vcOf hs.v
    refine put_kept hid h hs.wf hs.v hs.complete (fun hc => (hs.calm hc).trans hcalls)
      hs.called (fun h0 => ?_)
      (fun hlt i x hx => (hst hlt i x hx).1) (fun w hw => (hheld hst w hw).trans (h.inv.few w hw))
        fun _ => hheld hst
    rw [hzero hs.v h0]
    rfl
  have hlost : NVInfo.StoreLost V m verified (s.lastNvs j) t → Lost cfg id K A s (put s j t) := by
    rintro (hs | ⟨hi, hcalls, hv, hvc, hq⟩)
    · exact .inl (hkept hs)
    have hst := hstored hvc hv
    have hfew : ∀ w, s.v < w → (put s j t).held cfg w ≤ cfg.f + 1 :=
      fun w hw => (hheld hst w hw).trans (h.inv.few w hw)
    by_cases h0 : t.v = 0
    · have hnew := hzero hv h0
      refine .inl (put_kept hid h ?_ hv (fun hc => by simp [hi] at hc)
        (fun _ => hcalls) (fun hc => ?_) (fun _ => ?_)
        (fun hlt i x hx => (hst hlt i x hx).1) hfew fun _ => hheld hst)
      · rw [hnew]
        exact NVInfo.wf_new [] rfl 0 none 0
      · rw [hnew] at hc
        cases hc
      · rw [hnew]
        rfl
    · refine .inr (put_lost hid h hi hcalls hv h0 (fun hlt =>
        (present_le_put h.inv hv h0).trans (hfew _ hlt)) ?_)
      intro hb
      rw [NVInfo.isPrimary, hv] at hb
      exact hq hb
  exact .of_ensures (Ensures.of_result (fun a ha => hkept (h1 a ha)) fun hn => hlost (h2 hn))

theorem onNv_keeps {α : Type} (hid : id < cfg.n) (h : Ok cfg id s) {op : NVEnv → Prog NVInfo α}
    (hop : NVInfo.Keeps (s.nvEnv cfg id) (op (s.nvEnv cfg id)) (s.lastNvs j))
    (hz : s.lastNvs j = NVInfo.new → (op (s.nvEnv cfg id) NVInfo.new).2 = NVInfo.new) :
    Within (Kept cfg id K A) (Lost cfg id K A) (onNv cfg id j op) s := by
  refine onNv_stores default false hid h ?_ hz (by simp)
  refine Reaches.weaken (Reaches.mono hop fun _ t ht => ht.stores) (fun _ _ h => h) fun _ t ht => ?_
  rcases ht with ht | ⟨hi, hcalls, hv, hvc, hq⟩
  · exact .inl ht.stores
  · refine .inr ⟨hi, hcalls, hv, fun i x hx => .inl (by rw [← hvc]; exact hx), ?_⟩
    rw [NVInfo.present, hvc]
    exact hq

/-! ## The operations that stay in the view -/

/-- What was asked for is taken out. -/
theorem Ok.served (h : Ok cfg id s) : Ok cfg id { s with outs := [] } :=
  ⟨⟨⟨h.inv.views.own, h.inv.views.nonneg, h.inv.views.bound, h.inv.views.vcs⟩,
    h.inv.few, h.inv.zero, h.inv.calls, h.inv.prim,
    h.inv.own, fun j => (h.inv.wf j).env rfl rfl s.nvEnv_finds, h.inv.stored⟩, by simp, by simp⟩

variable (K A) in
/-- The program does nothing but what `Kept` says. -/
abbrev Keeps (cfg : Cfg) (id : Nat) {α : Type} (x : Prog ViewInfo α) (s : ViewInfo) : Prop :=
  Within (Kept cfg id K A) (Lost cfg id K A) x s

/-- A change that leaves the `NV_info`s alone. -/
theorem kept_of_nvs (h : Ok cfg id s) (hv : t.v = s.v) (hnv : t.lastNvs = s.lastNvs)
    (hviews : Views id t) (hge : ∀ i, s.lastViews i ≤ t.lastViews i)
    (houts : pnvOuts t.outs = pnvOuts s.outs) (hfew : ∀ w, s.v < w → t.held cfg w ≤ cfg.f + 1)
    (hA : A → ∀ w, s.v < w → t.held cfg w ≤ s.held cfg w) :
    Kept cfg id K A s t := by
  have hnew : t.hasNewView cfg t.v = s.hasNewView cfg s.v := by simp [hasNewView, hv, hnv]
  refine ⟨⟨⟨hviews, by rw [hv]; exact hfew, ?_, ?_, ?_, ?_, ?_, ?_⟩, ?_, ?_⟩,
    hv, hA, fun _ hs => ⟨by rw [hnew]; exact hs, houts⟩,
    fun _ ht => .inl (by rw [← hnew]; exact ht)⟩
  · rw [hnv]; exact h.inv.zero
  · rw [hnv]; exact h.inv.calls
  · rw [hnv, hv]; exact h.inv.prim
  · rw [hnv, hv]; exact h.inv.own
  · rw [hnv]; exact fun j => (h.inv.wf j).env rfl rfl s.nvEnv_finds
  · rw [hnv, hv]; exact fun k hk i x hx => (h.inv.stored k hk i x hx).trans (hge i)
  · rw [houts]; exact h.once
  · rw [houts, hnew]; exact h.complete

/-- View-changes may be dropped. -/
theorem held_le_of_vcs (hnv : t.lastNvs = s.lastNvs)
    (hvcs : ∀ i m, t.lastVcs i = some m → s.lastVcs i = some m) (w : Int) :
    t.held cfg w ≤ s.held cfg w := by
  refine List.countP_mono_left fun i _ hi => ?_
  simp only [heldBy, hnv, Bool.or_eq_true, Option.any_eq_true] at hi ⊢
  exact hi.imp (fun ⟨m, hm, hw⟩ => ⟨m, hvcs i m hm, hw⟩) fun h => h

/-- A change of the fields that `Ok` does not depend on. -/
theorem kept_of_eq (h : Ok cfg id s) (hv : t.v = s.v) (hnv : t.lastNvs = s.lastNvs)
    (hviews : t.lastViews = s.lastViews) (hvcs : ∀ i m, t.lastVcs i = some m → s.lastVcs i = some m)
    (houts : pnvOuts t.outs = pnvOuts s.outs) :
    Kept cfg id K A s t := by
  have hle : ∀ w, t.held cfg w ≤ s.held cfg w := held_le_of_vcs hnv hvcs
  refine kept_of_nvs h hv hnv ?_ (fun i => by rw [hviews])
    houts (fun w hw => (hle w).trans (h.inv.few w hw)) fun _ w _ => hle w
  exact ⟨by rw [hviews, hv]; exact h.inv.views.own, by rw [hviews]; exact h.inv.views.nonneg,
    by rw [hviews]; exact h.inv.views.bound, fun i m hm => by
      rw [hviews]
      exact h.inv.views.vcs i m (hvcs i m hm)⟩

theorem keeps_modify {g : ViewInfo → ViewInfo} (h : Ok cfg id s) (hv : (g s).v = s.v)
    (hnv : (g s).lastNvs = s.lastNvs) (hviews : (g s).lastViews = s.lastViews)
    (hvcs : ∀ i m, (g s).lastVcs i = some m → s.lastVcs i = some m)
    (houts : pnvOuts (g s).outs = pnvOuts s.outs) : Keeps K A cfg id (modify g) s :=
  .modify (kept_of_eq h hv hnv hviews hvcs houts)

theorem addComplete_keeps (h : Ok cfg id s) (pp : PrePrepareMsg) :
    Keeps K A cfg id (addComplete cfg pp) s := by
  refine .get_bind (.assert_bind h.stop fun _ => .ofOption_bind h.stop
    fun ri _ => .assert_bind h.stop fun _ => ?_)
  exact keeps_modify h rfl rfl rfl (fun _ _ h => h) rfl

theorem addIncomplete_keeps (h : Ok cfg id s) (n : Int) (d : Digest) :
    Keeps K A cfg id (addIncomplete cfg n d) s := by
  refine .get_bind (.ofOption_bind h.stop fun ri _ => ?_)
  exact keeps_modify h rfl rfl rfl (fun _ _ h => h) rfl

theorem pnvOuts_sends (outs sends : List Out) (h : ∀ o ∈ sends, isPnv o = false) :
    pnvOuts (outs ++ sends) = pnvOuts outs := by
  have : sends.countP isPnv = 0 := List.countP_eq_zero.2 fun o ho => by simp [h o ho]
  simp [pnvOuts, this]

theorem sendProofs_keeps (h : Ok cfg id s) (n v : Int) (dest : Nat) :
    Keeps K A cfg id (sendProofs cfg id n v dest) s := by
  refine .modify ?_
  cases s.oplog.fetch cfg.P.maxOut n with
  | none => exact .refl h
  | some ri =>
    refine kept_of_eq h rfl rfl rfl (fun _ _ h => h) (pnvOuts_sends _ _ fun o ho => ?_)
    obtain ⟨x, -, rfl⟩ := List.mem_map.1 ho
    rfl

theorem addMissing_keeps (hid : id < cfg.n) (h : Ok cfg id s) (pp : PrePrepareMsg)
    (digestOk : Bool) :
    Keeps K A cfg id (onNv cfg id j fun V => NVInfo.addMissing V pp digestOk) s :=
  onNv_keeps hid h (NVInfo.addMissing_keeps (h.inv.wf j) pp digestOk) fun _ => rfl

theorem addMissingPrepare_keeps (hid : id < cfg.n) (h : Ok cfg id s) (p : Prepare) :
    Keeps K A cfg id (onNv cfg id j fun V => NVInfo.addMissingPrepare V p) s :=
  onNv_keeps hid h (NVInfo.addMissingPrepare_keeps (h.inv.wf j) p) fun _ => rfl

theorem fetchRequest_keeps (hid : id < cfg.n) (h : Ok cfg id s) (n : Int) :
    Keeps K A cfg id (onNv cfg id j fun V => NVInfo.fetchRequest V n) s :=
  onNv_keeps hid h (NVInfo.fetchRequest_keeps (h.inv.wf j) n) fun _ => rfl

theorem nvAddAck_keeps (hid : id < cfg.n) (h : Ok cfg id s) (m : ViewChangeAck) :
    Keeps K A cfg id (onNv cfg id j fun V => NVInfo.addAck V m) s := by
  refine onNv_keeps hid h (NVInfo.addAck_keeps (h.inv.wf j) m) fun _ => ?_
  by_cases hv :
    m.v = 0 <;> simp [NVInfo.addAck, Prog.bind_apply, Prog.get, assert, ofOption, NVInfo.new, hv]

/-- What `fetch_request` returns to the primary of the current view. -/
theorem fetchRequest_result (h : Ok cfg id s) (hp : cfg.primary s.v = id)
    (hnew : s.hasNewView cfg s.v = true) (n : Int) :
    Ensures (onNv cfg id (cfg.primary s.v) fun V => NVInfo.fetchRequest V n) s
      (fun r _ => r.1.view = s.v ∧ r.1.seqno = n) fun _ => True := by
  have hcomp : (s.lastNvs (cfg.primary s.v)).isComplete = true := hnew
  have hv : (s.lastNvs (cfg.primary s.v)).v = s.v := by
    have hne : (s.lastNvs (cfg.primary s.v)).v ≠ 0 := by
      intro h0
      rw [h.inv.zero _ h0] at hcomp
      cases hcomp
    have hle := h.inv.own
    rw [← hp] at hle
    exact le_antisymm hle (h.inv.prim _ hne).2.1
  have hres := (NVInfo.fetchRequest_result (V := s.nvEnv cfg id)
    s.nvEnv_finds (h.inv.wf (cfg.primary s.v)) ?_ n).result.1
  · exact Ensures.of_result (fun r hr => hv ▸ hres r hr) fun _ => trivial
  · rw [NVInfo.isPrimary, hv]
    simpa [nvEnv] using hp

theorem markStable_keeps (hid : id < cfg.n) (h : Ok cfg id s) (ls : Int) :
    Keeps K A cfg id (markStable cfg id ls) s := by
  have hk : Kept cfg id K A s { s with
    lastStable := ls, oplog := s.oplog.truncate cfg.P.maxOut OReqInfo.clear (ls + 1) } :=
    kept_of_eq h rfl rfl rfl (fun _ _ h => h) rfl
  refine .modify_bind kept_composes hk (.get_bind ?_)
  exact onNv_keeps hid hk.ok (NVInfo.markStable_keeps (hk.ok.inv.wf _) ls) fun _ => rfl

theorem moveAck_keeps (hid : id < cfg.n) (h : Ok cfg id s) (i k : Nat) :
    Keeps K A cfg id (moveAck cfg id i k) s := by
  refine .get_bind ?_
  cases (s.vacks i).vacks k with
  | none => exact .pure (.refl h)
  | some ack =>
    refine .when (.refl h) fun _ => .bind kept_composes (nvAddAck_keeps hid h ack)
      fun added t ht => ?_
    exact .when (.refl ht.ok) fun _ => keeps_modify ht.ok rfl rfl rfl (fun _ _ h => h) rfl

theorem matchAck_keeps (hid : id < cfg.n) (h : Ok cfg id s) (vca : ViewChangeAck) (vcv : Int) :
    Keeps K A cfg id (matchAck cfg id vca vcv) s :=
  .get_bind (.ite (fun _ => nvAddAck_keeps hid h vca) fun _ => .pure (.refl h))

theorem storeAck_kept (h : Ok cfg id s) (vca : ViewChangeAck) (vcv : Int) :
    Kept cfg id K A s (storeAck vca vcv s) := by
  unfold storeAck
  simp only
  split
  · exact kept_of_eq h rfl rfl rfl (fun _ _ h => h) rfl
  · exact .refl h

theorem addAck_keeps (hid : id < cfg.n) (h : Ok cfg id s) (vca : ViewChangeAck) (verified : Bool) :
    Keeps K A cfg id (addAck cfg id vca verified) s := by
  refine .when (.refl h) fun _ => .assert_bind h.stop fun _ => ?_
  refine .bind kept_composes (matchAck_keeps hid h vca _)
    fun added t ht => .when (.refl ht.ok) fun _ => ?_
  exact .modify (storeAck_kept ht.ok vca _)

/-! ## View-changes -/

theorem nvAddViewChange_new {V : NVEnv} {m : ViewChange} {verified digestOk : Bool}
    (hm : verified = true → 0 < m.v) :
    (NVInfo.addViewChange V m verified digestOk NVInfo.new).2 = NVInfo.new := by
  have hfail : (m.v == NVInfo.new.v && decide (m.id < V.cfg.n)) = false →
      (NVInfo.addViewChange V m verified digestOk NVInfo.new).2 = NVInfo.new := by
    intro hf
    simp only [NVInfo.addViewChange, Prog.get_bind_apply]
    rw [Prog.bind_of_none (t := NVInfo.new) (by simp only [assert, hf]; rfl)]
  cases verified with
  | true =>
    refine hfail ?_
    have := hm rfl
    have : m.v ≠ 0 := by omega
    simp [NVInfo.new, this]
  | false =>
    by_cases hv : m.v = 0 ∧ m.id < V.cfg.n
    · by_cases hp : V.cfg.primary 0 = V.id
      · simp [NVInfo.addViewChange, Prog.bind_apply, Prog.get,
          assert, ofOption, hv, NVInfo.new, NVInfo.isPrimary, NVInfo.vcOf,
          NVInfo.noVC, hp]
      · simp [NVInfo.addViewChange, Prog.bind_apply, Prog.get,
          assert, ofOption, hv, NVInfo.new, NVInfo.isPrimary, NVInfo.vcOf,
          NVInfo.noVC, hp, NVInfo.names]
    · refine hfail ?_
      simp only [NVInfo.new, Bool.and_eq_false_iff, beq_eq_false_iff_ne, decide_eq_false_iff_not]
      by_cases h0 : m.v = 0
      · exact .inr fun h => hv ⟨h0, h⟩
      · exact .inl h0

/-- Moving a view-change to the `NV_info` of its view. -/
theorem moveVC_keeps (hid : id < cfg.n) (h : Ok cfg id s) {v : Int}
    (hv : s.v < v → toInt v = v) (i : Nat) :
    Keeps K A cfg id (moveVC cfg id j v i) s := by
  refine .get_bind ?_
  cases hvc : s.lastVcs i with
  | none => exact .pure (.refl h)
  | some vc =>
    obtain ⟨hvid, hpos, hview⟩ := h.inv.views.vcs i vc hvc
    refine .when (.refl h) fun heq => .bind kept_composes ?_
      fun added t ht => .when (.refl ht.ok) fun _ => ?_
    · refine onNv_stores _ _ hid h (NVInfo.addViewChange_stores hid (h.inv.wf j) vc true true)
        (fun _ => nvAddViewChange_new fun _ => hpos) fun _ hvj hlt => ?_
      have heq : vc.v = v := by simpa using heq
      rw [← hvj] at hlt ⊢
      rw [hvid]
      rw [heq] at hlt hview ⊢
      refine ⟨by rw [hv hlt] at hview; exact hview, ?_⟩
      simp [heldBy, hvc, heq, hv hlt]
    · refine keeps_modify ht.ok rfl rfl rfl (fun k m hm => ?_) rfl
      by_cases hk : k = i
      · subst hk
        simp at hm
      · simpa [hk] using hm

theorem countP_or_le {α : Type} (p q : α → Bool) (l : List α) :
    (l.countP fun a => p a || q a) ≤ l.countP p + l.countP q := by
  induction l with
  | nil => simp
  | cons a l ih =>
    simp only [List.countP_cons]
    cases p a <;> cases q a <;> simp <;> omega

/-- The view-change of one more replica is kept. -/
theorem held_succ_le {i : Nat} {w : Int}
    (h : ∀ k, k ≠ i → t.heldBy cfg w k = true → s.heldBy cfg w k = true) :
    t.held cfg w ≤ s.held cfg w + 1 := by
  have hone : (List.range cfg.n).countP (fun k => k == i) ≤ 1 := by
    have := List.nodup_iff_count_le_one.1 (List.nodup_range (n := cfg.n)) i
    simpa [List.count] using this
  refine le_trans (List.countP_mono_left fun k _ hk => ?_)
    ((countP_or_le (s.heldBy cfg w) _ _).trans (Nat.add_le_add_left hone _))
  by_cases hki : k = i
  · simp [hki]
  · simp [h k hki hk]

/-- A replica is seen in a later view, and its view-change may be kept. -/
theorem raise_kept (h : Ok cfg id s) {w : Int} {i : Nat} (hi : i ≠ id) (hlow : s.lastViews i ≤ w)
    (hw : w < 2 ^ 31) (hviews : t.lastViews = Function.update s.lastViews i w)
    (hvcs : ∀ k m, t.lastVcs k = some m → s.lastVcs k = some m ∨
      k = i ∧ m.id = i ∧ 0 < m.v ∧ toInt m.v ≤ w)
    (hfew : ∀ w, s.v < w → t.held cfg w ≤ cfg.f + 1)
    (hA : A → ∀ w, s.v < w → t.held cfg w ≤ s.held cfg w) (hv : t.v = s.v)
    (hnv : t.lastNvs = s.lastNvs) (houts : t.outs = s.outs) : Kept cfg id K A s t := by
  have hge : ∀ k, s.lastViews k ≤ t.lastViews k := by
    intro k
    rw [hviews]
    by_cases hk : k = i
    · subst hk
      simpa using hlow
    · simp [hk]
  refine kept_of_nvs h hv hnv ⟨?_, fun k => (h.inv.views.nonneg k).trans (hge k),
    ?_, ?_⟩ hge (by rw [houts]) hfew hA
  · rw [hviews, hv, Function.update_of_ne hi.symm]
    exact h.inv.views.own
  · intro k hk
    rw [hviews]
    by_cases hki : k = i
    · subst hki
      simpa using hw
    · simpa [hki] using h.inv.views.bound k hk
  · intro k m hm
    rcases hvcs k m hm with hm | ⟨rfl, hmi, hpos, hle⟩
    · obtain ⟨h1, h2, h3⟩ := h.inv.views.vcs k m hm
      exact ⟨h1, h2, h3.trans (hge k)⟩
    · refine ⟨hmi, hpos, ?_⟩
      rw [hviews, Function.update_self]
      exact hle

theorem out_send_keeps (h : Ok cfg id s) (dest : Option Nat) (m : Msg) :
    Keeps K A cfg id (out (.send dest m)) s :=
  keeps_modify h rfl rfl rfl (fun _ _ h => h) (pnvOuts_send _ _ _)

theorem storeViewChange_keeps (hA : ¬A) (h : Ok cfg id s)
    (hcalm : ∀ w, s.v < w → s.held cfg w ≤ cfg.f) {vc : ViewChange} (hvid : vc.id ≠ id)
    (hpos : 0 < vc.v) (hlow : s.lastViews vc.id < toInt vc.v) :
    Keeps K A cfg id (storeViewChange cfg id vc (toInt vc.v)) s := by
  have hk : Kept cfg id K A s { s with
      lastVcs := Function.update s.lastVcs vc.id (some vc)
      lastViews := Function.update s.lastViews vc.id (toInt vc.v) } := by
    refine raise_kept h hvid hlow.le (toInt_lt _) rfl (fun k m hm => ?_)
      (fun w hw => ?_) (fun a => absurd a hA) rfl rfl rfl
    · by_cases hk : k = vc.id
      · subst hk
        obtain rfl : vc = m := by simpa using hm
        exact .inr ⟨rfl, rfl, hpos, le_rfl⟩
      · exact .inl (by simpa [hk] using hm)
    · refine (held_succ_le (s := s) (i := vc.id) fun k hk hh => ?_).trans
        (Nat.add_le_add_right (hcalm w hw) 1)
      simpa [heldBy, hk] using hh
  refine .modify_bind kept_composes hk
    (.get_bind (.when (.refl hk.ok) fun _ => .assert_bind hk.ok.stop fun _ => ?_))
  refine .bind kept_composes (keeps_modify hk.ok rfl rfl rfl (fun _ _ h => h) rfl) fun _ t ht => ?_
  exact out_send_keeps ht.ok _ _

/-- A view-change of the current view, for which there is a new-view message. -/
theorem matchViewChange_current (hid : id < cfg.n) (h : Ok cfg id s) {vc : ViewChange}
    {verified : Bool} (digestOk : Bool) (hver : verified = true → vc.id ≠ id ∧ 0 < vc.v)
    (hnv : (s.lastNvs (cfg.primary (toInt vc.v))).v = toInt vc.v) (hcur : toInt vc.v = s.v) :
    Keeps K A cfg id (matchViewChange cfg id vc (toInt vc.v) verified digestOk) s := by
  refine .bind kept_composes ?_ fun stored t ht => .get_bind ?_
  · refine onNv_stores _ _ hid h (NVInfo.addViewChange_stores hid (h.inv.wf _) vc verified digestOk)
      (fun _ => nvAddViewChange_new fun hv => (hver hv).2) fun _ _ hlt => ?_
    rw [hnv, hcur] at hlt
    exact absurd hlt (lt_irrefl _)
  refine .bind kept_composes (.when (.refl ht.ok) fun _ => ?_) fun _ u hu => ?_
  · exact .each kept_composes (.refl ht.ok) (fun i w hw => moveAck_keeps hid hw.ok i vc.id) _
  · have hk : Kept cfg id K A u (if verified && u.lastViews vc.id < toInt vc.v then
        { u with lastViews := Function.update u.lastViews vc.id (toInt vc.v) } else u) := by
      split
      · rename_i hc
        obtain ⟨hv, hlow⟩ : verified = true ∧ u.lastViews vc.id < toInt vc.v := by simpa using hc
        exact raise_kept hu.ok (hver hv).1 hlow.le (toInt_lt _)
          rfl (fun k m hm => .inl hm) hu.ok.inv.few
          (fun _ _ _ => le_rfl) rfl rfl rfl
      · exact .refl hu.ok
    exact .modify_bind kept_composes hk (.pure (.refl hk.ok))

/-- The view of a replica is noted. -/
def note (s : ViewInfo) (i : Nat) (w : Int) (verified : Bool) : ViewInfo :=
  if verified && s.lastViews i < w then
    { s with lastViews := Function.update s.lastViews i w } else s

theorem note_put (t : NVInfo) (i : Nat) (w : Int) (verified : Bool) :
    note (put s j t) i w verified = put (note s i w verified) j t := by
  have hl : (put s j t).lastViews = s.lastViews := rfl
  unfold note
  rw [hl]
  split <;> rfl

theorem note_kept (h : Ok cfg id s) {i : Nat} {w : Int} {verified : Bool}
    (hi : verified = true → i ≠ id) (hw : w < 2 ^ 31) :
    Kept cfg id K A s (note s i w verified) := by
  unfold note
  split
  · rename_i hc
    obtain ⟨hv, hlow⟩ : verified = true ∧ s.lastViews i < w := by simpa using hc
    exact raise_kept h (hi hv) hlow.le hw rfl (fun k m hm => .inl hm)
      h.inv.few (fun _ _ _ => le_rfl) rfl rfl rfl
  · exact .refl h

theorem note_lastNvs (i : Nat) (w : Int) (verified : Bool) :
    (note s i w verified).lastNvs = s.lastNvs := by
  unfold note
  split <;> rfl

theorem le_note (k i : Nat) (w : Int) (verified : Bool) :
    s.lastViews k ≤ (note s i w verified).lastViews k := by
  unfold note
  split
  · rename_i hc
    have hlow : s.lastViews i < w := by simpa using (Bool.and_eq_true_iff.1 hc).2
    by_cases hk : k = i
    · subst hk
      simpa using hlow.le
    · simp [hk]
  · exact le_rfl

/-- A view-change of a later view, for which there is a new-view message. -/
theorem matchViewChange_later (hA : ¬A) (hid : id < cfg.n) (h : Ok cfg id s)
    (hcalm : ∀ w, s.v < w → s.held cfg w ≤ cfg.f) (houts : pnvOuts s.outs = 0) {vc : ViewChange}
    {verified : Bool} (digestOk : Bool) (hver : verified = true → vc.id ≠ id ∧ 0 < vc.v)
    (hnv : (s.lastNvs (cfg.primary (toInt vc.v))).v = toInt vc.v) (hlt : s.v < toInt vc.v) :
    Keeps K A cfg id (matchViewChange cfg id vc (toInt vc.v) verified digestOk) s := by
  set j := cfg.primary (toInt vc.v) with hj
  set nv := s.lastNvs j with hnv'
  -- the view-changes that are there, and this one, are fewer than a quorum
  have hfew : ∀ t : NVInfo, t.v = nv.v → (∀ i x, t.vcOf i = some x → nv.vcOf i = some x ∨
      i = vc.id ∧ x = vc ∧ vc.v = nv.v ∧ verified = true) → ∀ w,
        s.v < w → (put s j t).held cfg w ≤ cfg.f + 1 := by
    intro t hv hvc w hw
    refine (held_succ_le (s := s) (i := vc.id) fun k hk hh => ?_).trans
      (Nat.add_le_add_right (hcalm w hw) 1)
    by_cases hjw : cfg.primary w = j
    · simp only [heldBy, hjw, put_lastNvs_self, Bool.or_eq_true,
        Bool.and_eq_true, beq_iff_eq] at hh ⊢
      refine hh.imp (fun h => h) fun ⟨hw, hx⟩ => ⟨by rw [← hw, hv], ?_⟩
      obtain ⟨x, hx⟩ := Option.isSome_iff_exists.1 hx
      rcases hvc k x hx with hx | ⟨rfl, -⟩
      · exact Option.isSome_of_eq_some hx
      · exact absurd rfl hk
    · simp only [heldBy, put_lastNvs_of_ne t hjw] at hh ⊢
      exact hh
  have hback : cfg.primary nv.v ≠ id :=
    nv_backup h.inv (by rw [← hnv', hnv]; exact hlt) h.inv.nonneg
  have hnz : nv.v ≠ 0 := by
    have := h.inv.nonneg
    omega
  have hcalls : ∀ t, NVInfo.Stores (s.nvEnv cfg id) vc verified nv t →
    NVInfo.pnvCalls t.calls = 0 := by
    intro t ht
    by_contra hne
    have hone : NVInfo.pnvCalls t.calls = 1 := by have := ht.wf.once; omega
    have hle := (present_le_put (j := j) h.inv ht.v (by rw [ht.v]; exact hnz)).trans
      (hfew t ht.v ht.vcOf t.v (by rw [ht.v, hnv]; exact hlt))
    refine not_decided_of_later hid (V := s.nvEnv cfg id) rfl rfl (by rw [ht.v]; exact hback) hle
      (ht.wf.quorum ?_ (.inr (ht.wf.complete hone)))
    rw [NVInfo.isPrimary, ht.v]
    simpa [nvEnv] using hback
  have hop :=
    NVInfo.addViewChange_stores (V := s.nvEnv cfg id) hid (h.inv.wf j) vc verified digestOk
  obtain ⟨h1, h2⟩ := hop.result
  refine Ensures.bind (Q := fun _ t => ∃ n, NVInfo.Stores (s.nvEnv cfg id) vc verified nv n ∧
    t = put s j n) ?_ ?_
  · refine Ensures.of_result (fun a ha => ⟨_, h1 a ha, rfl⟩) fun hn => .inr ?_
    rw [onNv_apply, pnvOuts_put, houts]
    rcases h2 hn with ht | ⟨-, hc, -⟩
    · rw [hcalls _ ht]
    · rw [hc]
  · rintro stored _ ⟨n, hn, rfl⟩
    refine Reaches.get_bind (Reaches.bind (Q := fun _ t => t = put s j n) ?_ ?_)
    · refine Reaches.when (fun hc => ?_) fun _ => rfl
      have hcur : toInt vc.v = (put s j n).v := by simpa using (Bool.and_eq_true_iff.1 hc).2
      have hv : (put s j n).v = s.v := rfl
      omega
    rintro _ _ - rfl
    -- the last view could as well have been noted first
    have hs' : Kept cfg id K A s (note s vc.id (toInt vc.v) verified) :=
      note_kept h (fun hv => (hver hv).1) (toInt_lt _)
    have hnvs := note_lastNvs (s := s) vc.id (toInt vc.v) verified
    refine Reaches.modify_bind trivial (Reaches.pure ?_)
    change Kept cfg id K A s (note (put s j n) vc.id (toInt vc.v) verified)
    have hheld : ∀ w, (put (note s vc.id (toInt vc.v) verified) j n).held cfg w =
      (put s j n).held cfg w := by
      intro w
      rw [← note_put]
      unfold note
      split <;> rfl
    rw [note_put]
    refine hs'.trans (put_kept hid hs'.ok (hn.wf.env rfl rfl s.nvEnv_finds)
      (by rw [hnvs]; exact hn.v) (by rw [hnvs]; exact hn.complete)
      (fun _ => hcalls n hn) (by rw [hnvs]; exact hn.called)
        (fun h0 => ?_) (fun _ i x hx => ?_) (fun w hw => ?_) fun a => absurd a hA)
    · exact absurd (hn.v ▸ h0) hnz
    · rw [hn.v]
      rcases hn.vcOf i x hx with hx | ⟨rfl, -, -, hv⟩
      · exact (h.inv.stored j (by rw [← hnv', hnv]; exact hlt) i x hx).trans (le_note i _ _ _)
      · rw [hnv]
        unfold note
        simp only [hv, Bool.true_and]
        split
        · simp
        · rename_i hc
          simpa using hc
    · rw [hheld]
      exact hfew n hn.v hn.vcOf w (hs'.v ▸ hw)

/-- **`add(View_change*)`**, where at most `f` view-changes for a later view are kept. -/
theorem addViewChange_keeps (hA : ¬A) (hid : id < cfg.n) (h : Ok cfg id s)
    (hcalm : ∀ w, s.v < w → s.held cfg w ≤ cfg.f) (houts : pnvOuts s.outs = 0)
    {vc : ViewChange} {verified : Bool} (digestOk : Bool)
    (hver : verified = true → vc.id ≠ id ∧ 0 < vc.v) :
    Keeps K A cfg id (addViewChange cfg id vc verified digestOk) s := by
  refine .get_bind (.ite (fun _ => .pure (.refl h)) fun hge => .ite (fun hnv => ?_) fun _ => ?_)
  · rcases (by omega : toInt vc.v = s.v ∨ s.v < toInt vc.v) with hc | hc
    · exact matchViewChange_current hid h digestOk hver hnv hc
    · exact matchViewChange_later hA hid h hcalm houts digestOk hver hnv hc
  · refine .assert_bind h.stop fun _ => .ite (fun hc => ?_) fun _ => .pure (.refl h)
    obtain ⟨hlow, hv⟩ : s.lastViews vc.id < toInt vc.v ∧ verified = true := by simpa using hc
    refine .bind kept_composes (storeViewChange_keeps hA h hcalm (hver hv).1 (hver hv).2 hlow)
      fun _ t ht => ?_
    exact .pure (.refl ht.ok)

/-- A view-change that is turned down is not stored. -/
theorem addViewChange_false (vc : ViewChange) (verified digestOk : Bool) :
    Ensures (addViewChange cfg id vc verified digestOk) s (fun b t => b = false → ∀ w,
        t.held cfg w ≤ s.held cfg w)
      fun _ => True := by
  refine Reaches.get_bind (Reaches.ite (fun _ => Reaches.pure fun _ _ => le_rfl)
    fun _ => Reaches.ite (fun _ => ?_) fun _ => ?_)
  · set j := cfg.primary (toInt vc.v) with hj
    have hop : Ensures (onNv cfg id j fun V => NVInfo.addViewChange V vc verified digestOk) s
        (fun b t => b = false → t.lastVcs = s.lastVcs ∧ ∀ k, (t.lastNvs k).v = (s.lastNvs k).v ∧
          (t.lastNvs k).vcOf = (s.lastNvs k).vcOf) fun _ => True := by
      refine Ensures.of_result (fun b hb hfalse => ⟨rfl, fun k => ?_⟩) fun _ => trivial
      rw [onNv_apply] at hb ⊢
      have hsame := (NVInfo.addViewChange_false (V := s.nvEnv cfg id)
        (s := s.lastNvs j) vc verified digestOk).result.1 b hb hfalse
      simp only [hsame]
      by_cases hk : k = j
      · subst hk
        rw [put_lastNvs_self]
        exact ⟨rfl, rfl⟩
      · rw [put_lastNvs_of_ne _ hk]
        exact ⟨rfl, rfl⟩
    refine Ensures.bind hop fun stored t ht =>
      Reaches.get_bind (Ensures.bind (Q := fun _ u => stored = false → u = t) ?_ ?_)
    · refine Reaches.when (fun hc => Ensures.of_result (fun _ _ hs => ?_) fun _ => trivial)
        fun _ _ => rfl
      simp [hs] at hc
    · intro _ u hu
      refine Reaches.modify_bind trivial (Reaches.pure fun hs w => ?_)
      obtain ⟨h1, h2⟩ := ht hs
      rw [hu hs]
      refine List.countP_mono_left fun i _ hi => ?_
      have hi : t.heldBy cfg w i = true := by
        split at hi <;> exact hi
      unfold heldBy at hi ⊢
      rw [h1, (h2 _).1, (h2 _).2] at hi
      exact hi
  · refine Reaches.assert_bind trivial fun _ => Reaches.ite (fun _ => ?_)
      fun _ => Reaches.pure fun _ _ => le_rfl
    refine Ensures.bind (Q := fun _ _ => True) (Ensures.of_result (fun _ _ => trivial)
      fun _ => trivial) fun _ _ _ => ?_
    exact Reaches.pure fun hb => by cases hb

/-- **At most `f` view-changes are kept** for a view above `max_view`. -/
theorem held_le_of_maxView (h : Inv cfg id s) {w : Int} (hw : s.v < w) (hmax : s.maxView cfg < w) :
    s.held cfg w ≤ cfg.f := by
  have hle : s.held cfg w ≤ (List.range cfg.n).countP fun i => decide (w ≤ s.lastViews i) := by
    refine List.countP_mono_left fun i _ hi => ?_
    simpa using h.le_lastViews hw hi
  refine hle.trans ?_
  by_cases hv : s.v < 2 ^ 31
  · -- fewer than `f + 1` views exceed the `f + 1`st largest
    have hkth : KMax.IsKth (cfg.f + 1) ((List.range cfg.n).map s.lastViews) (s.maxView cfg) := by
      refine kMax_isKth (by omega) (by simp [Cfg.n]; omega) fun x hx => ?_
      obtain ⟨i, -, rfl⟩ := List.mem_map.1 hx
      refine ⟨h.views.nonneg i, ?_⟩
      unfold seqnoMax
      by_cases hi : i = id
      · rw [hi, h.views.own]
        omega
      · have := h.views.bound i hi
        omega
    have hlt := hkth.2
    rw [List.countP_map] at hlt
    have hmono : (List.range cfg.n).countP (fun i => decide (w ≤ s.lastViews i)) ≤
        (List.range cfg.n).countP ((fun y => decide (s.maxView cfg < y)) ∘ s.lastViews) := by
      refine List.countP_mono_left fun i _ hi => ?_
      simp only [Function.comp_apply, decide_eq_true_eq] at hi ⊢
      omega
    omega
  · -- the views of the other replicas are `int`s
    refine (List.countP_eq_zero.2 fun i _ => ?_).le.trans (Nat.zero_le _)
    have hlt : s.lastViews i < w := by
      by_cases hi : i = id
      · rw [hi, h.views.own]
        exact hw
      · have := h.views.bound i hi
        omega
    simpa using hlt

/-! ## New views -/

theorem onNv_addNewView (h : Inv cfg id s) (nv : NewView) (hlt : (s.lastNvs j).v < nv.v) :
    onNv cfg id j (fun V => NVInfo.addNewView V nv) s =
      (some true, put s j (NVInfo.started cfg nv [])) := by
  have heq := NVInfo.addNewView_eq (V := s.nvEnv cfg id) (s := s.lastNvs j) nv fun h0 => by
    rw [h.zero j h0]
  rw [if_neg (by omega), h.calls j] at heq
  rw [onNv_apply, heq]
  rfl

theorem held_put_started (nv : NewView) :
    ∀ w, s.v < w → (put s j (NVInfo.started cfg nv [])).held cfg w ≤ s.held cfg w :=
  held_put_le fun _ i hi => by simp [NVInfo.started, NVInfo.vcOf, NVInfo.new, NVInfo.noVC] at hi

/-- The state with a new-view message that was just added. -/
theorem put_started_inv (h : Inv cfg id s) {nv : NewView} (hpos : 0 < nv.v) (hge : s.v ≤ nv.v)
    (hj : cfg.primary nv.v = j) (hown : j = id → nv.v ≤ s.v) :
    Inv cfg id (put s j (NVInfo.started cfg nv [])) := by
  refine put_inv h (NVInfo.wf_new [] rfl _ _ _) (fun _ => ⟨hpos, hge, hj⟩)
    hown (fun h0 => ?_) (fun _ i x hx => ?_)
    fun w hw => (held_put_started nv w hw).trans (h.few w hw)
  · have h0 : nv.v = 0 := h0
    omega
  · simp [NVInfo.started, NVInfo.vcOf, NVInfo.new, NVInfo.noVC] at hx

theorem put_started_kept (h : Ok cfg id s) {nv : NewView} (hpos : 0 < nv.v) (hge : s.v ≤ nv.v)
    (hj : cfg.primary nv.v = j) (hown : j = id → nv.v ≤ s.v)
    (hK : K → j = cfg.primary s.v → s.hasNewView cfg s.v = false)
    (houts : j = cfg.primary s.v → pnvOuts s.outs = 0) :
    Kept cfg id K A s (put s j (NVInfo.started cfg nv [])) := by
  have hinv := put_started_inv h.inv hpos hge hj hown
  have hpnv : pnvOuts (put s j (NVInfo.started cfg nv [])).outs = pnvOuts s.outs := by
    simp [NVInfo.started]
  have hother : j ≠ cfg.primary s.v → s.hasNewView cfg s.v = true →
      (put s j (NVInfo.started cfg nv [])).hasNewView cfg
        (put s j (NVInfo.started cfg nv [])).v = true := by
    intro hne hs
    unfold hasNewView at hs ⊢
    rw [put_lastNvs_of_ne]
    · exact hs
    · exact fun he => hne he.symm
  refine ⟨⟨hinv, ?_, fun h1 => ?_⟩,
    rfl, fun _ => held_put_started nv, fun k hs => ?_, fun _ ht => .inl ?_⟩
  · rw [hpnv]
    exact h.once
  · rw [hpnv] at h1
    by_cases hc : j = cfg.primary s.v
    · rw [houts hc] at h1
      cases h1
    · exact hother hc (h.complete h1)
  · by_cases hc : j = cfg.primary s.v
    · rw [hK k hc] at hs
      cases hs
    · exact ⟨hother hc hs, hpnv⟩
  · have hv : (put s j (NVInfo.started cfg nv [])).v = s.v := rfl
    unfold hasNewView at ht ⊢
    rw [hv] at ht
    by_cases hc : cfg.primary s.v = j
    · rw [hc, put_lastNvs_self] at ht
      cases ht
    · rw [put_lastNvs_of_ne _ hc] at ht
      exact ht

/-- **`add(New_view*)`.** The condition `K` has to say that the message replaces no complete new
view of the current view, which one for a later view of the same primary does. -/
theorem addNewView_keeps (hid : id < cfg.n) (h : Ok cfg id s) (houts : pnvOuts s.outs = 0)
    {nv : NewView} {verified : Bool} (hver : verified = true → nv.id cfg ≠ id ∧ 0 < nv.v)
    (hK : K → verified = true → nv.id cfg = cfg.primary s.v → (s.lastNvs (nv.id cfg)).v < nv.v →
      s.hasNewView cfg s.v = false) : Keeps K A cfg id (addNewView cfg id nv verified) s := by
  refine .get_bind (.when (.refl h) fun hc => ?_)
  obtain ⟨⟨hge, hv⟩, hlt⟩ : (s.v ≤ toInt nv.v ∧ verified = true) ∧
    (s.lastNvs (nv.id cfg)).v < nv.v := by simpa using hc
  have hpos := (hver hv).2
  have hk : Kept cfg id K A s (put s (nv.id cfg) (NVInfo.started cfg nv [])) := by
    refine put_started_kept h hpos (hge.trans (toInt_le hpos.le))
      rfl (fun he => absurd he (hver hv).1)
      (fun k he => hK k hv he hlt) fun _ => houts
  refine .bind kept_composes ?_ fun stored t ht => .when (.refl ht.ok) fun _ => ?_
  · refine .of_ensures (Ensures.of_result ?_ ?_) <;> simp [onNv_addNewView h.inv nv hlt, hk]
  · exact .each kept_composes (.refl ht.ok) (fun i u hu =>
      moveVC_keeps hid hu.ok (fun _ => toInt_toInt _) i) _

theorem startNewView_keeps (hid : id < cfg.n) (h : Ok cfg id s) (hp : cfg.primary s.v = id)
    (hpos : 0 < s.v) (hz : (s.lastNvs id).v = 0) : Keeps K A cfg id (startNewView cfg id) s := by
  refine .get_bind (.assert_bind h.stop fun _ => ?_)
  have hno : s.hasNewView cfg s.v = false := by
    unfold hasNewView
    rw [hp, h.inv.zero id hz]
    rfl
  have houts : pnvOuts s.outs = 0 := by
    have h1 := h.once
    have h2 : pnvOuts s.outs ≠ 1 := fun h1 => by simp [h.complete h1] at hno
    omega
  have hk : Kept cfg id K A s (put s id (NVInfo.started cfg (NewView.new s.v) [])) :=
    put_started_kept h hpos le_rfl hp (fun _ => le_rfl) (fun _ _ => hno) fun _ => houts
  refine .bind kept_composes ?_ fun _ t ht => ?_
  · refine .of_ensures (Ensures.of_result ?_ ?_) <;>
      simp [onNv_addNewView h.inv (NewView.new s.v) (by rw [hz]; exact hpos), hk]
  refine .bind kept_composes (.each kept_composes (.refl ht.ok) (fun i u hu => ?_) _)
    fun _ w hw => ?_
  · refine moveVC_keeps hid hu.ok (fun hlt => ?_) i
    rw [hu.v, ht.v] at hlt
    exact absurd hlt (lt_irrefl _)
  · exact .each kept_composes (.refl hw.ok) (fun i u hu => .each kept_composes (.refl hu.ok)
      (fun k x hx => moveAck_keeps hid hx.ok i k) _) _

theorem ackOther_keeps (h : Ok cfg id s) (vc : ViewChange) (i : Nat) :
    Keeps K A cfg id (ackOther cfg id vc i) s := by
  refine .get_bind ?_
  cases s.lastVcs i with
  | none => exact .pure (.refl h)
  | some lvc =>
    refine .when (.refl h) fun _ =>
      .bind kept_composes (keeps_modify h rfl rfl rfl (fun _ _ h => h) rfl) fun _ t ht => ?_
    exact out_send_keeps ht.ok _ _

/-! ## New keys -/

theorem Inv.clear_eq (h : Inv cfg id s) (k : Nat) : (s.lastNvs k).clear = NVInfo.new := by
  simp [NVInfo.clear, h.calls k, NVInfo.new]

/-- A complete `NV_info` is not for a later view. -/
theorem Inv.not_later (hid : id < cfg.n) (h : Inv cfg id s) (hc : (s.lastNvs j).isComplete = true) :
    (s.lastNvs j).v ≤ s.v := by
  by_contra hlt
  have hlt : s.v < (s.lastNvs j).v := not_le.1 hlt
  have hnn := h.nonneg
  have hback := nv_backup h hlt hnn
  refine not_decided_of_later hid (V := s.nvEnv cfg id)
    rfl rfl hback ?_ ((h.wf j).quorum ?_ (.inr hc))
  · refine (present_le_held (s := s) ?_).trans (h.few _ hlt)
    rw [(h.prim j (by omega)).2.2]
  · simpa [NVInfo.isPrimary, nvEnv] using hback

/-- The `NV_info` of `j` is cleared. -/
theorem put_clear_kept (h : Ok cfg id s) (hi : (s.lastNvs j).isComplete = false) :
    Kept cfg id K A s (put s j (s.lastNvs j).clear) := by
  have hclear := h.inv.clear_eq j
  have hv0 : (s.lastNvs j).clear.v = 0 := by rw [hclear]; rfl
  have hnn := h.inv.nonneg
  have hheld : ∀ w, s.v < w → (put s j (s.lastNvs j).clear).held cfg w ≤ s.held cfg w :=
    held_put_le fun hlt => by omega
  have hinv : Inv cfg id (put s j (s.lastNvs j).clear) := by
    refine put_inv h.inv ?_ (fun hne => absurd hv0 hne)
      (fun _ => by omega) (fun _ => ?_) (fun hlt => by omega) fun w hw =>
      (hheld w hw).trans (h.inv.few w hw)
    · rw [hclear]
      exact NVInfo.wf_new [] rfl 0 none 0
    · rw [hclear]
      rfl
  have hpnv : pnvOuts (put s j (s.lastNvs j).clear).outs = pnvOuts s.outs := by
    rw [hclear]
    simp [NVInfo.new]
  have hnew : (put s j (s.lastNvs j).clear).hasNewView cfg s.v = s.hasNewView cfg s.v := by
    unfold hasNewView
    by_cases hc : cfg.primary s.v = j
    · rw [hc, put_lastNvs_self, hi, hclear]
      rfl
    · rw [put_lastNvs_of_ne _ hc]
  exact ⟨⟨hinv, by rw [hpnv]; exact h.once, fun h1 => hnew.trans (h.complete (hpnv ▸ h1))⟩,
    rfl, fun _ => hheld,
    fun _ hs => ⟨hnew.trans hs, hpnv⟩, fun _ ht => .inl (hnew ▸ ht)⟩

/-- What `mark_stale` leaves of an `NV_info` is not for a later view. -/
theorem put_staled_kept (hid : id < cfg.n) (h : Ok cfg id s) {r : Option ViewChange} {t : NVInfo}
    (ht : NVInfo.Staled (s.nvEnv cfg id) (s.lastNvs j) r t) :
    Kept cfg id K A s (put s j t) ∧ t.v ≤ s.v := by
  have hcalls := h.inv.calls j
  rcases ht with ⟨hc, rfl, -⟩ | ⟨hi, rfl, -⟩ | ⟨hi, hpos, hp, hw, hv, hcalled, -⟩
  · have hheld : ∀ w, s.v < w → (put s j (s.lastNvs j)).held cfg w ≤ s.held cfg w :=
      held_put_le fun hlt i hi => h.inv.heldBy_of_stored hlt hi
    refine ⟨put_kept hid h (h.inv.wf j) rfl (fun h => h)
      (fun _ => by rw [hcalls]; rfl) .inl (fun h0 => ?_) (h.inv.stored j)
      (fun w hw => (hheld w hw).trans (h.inv.few w hw)) fun _ => hheld, h.inv.not_later hid hc⟩
    rw [h.inv.zero j h0]
    rfl
  · refine ⟨put_clear_kept h hi, ?_⟩
    rw [h.inv.clear_eq]
    exact h.inv.nonneg
  · -- the replica is the primary of the view, which is not a later one
    have hj : j = id := by
      rw [← (h.inv.prim j (by omega)).2.2]
      simpa [NVInfo.isPrimary, nvEnv] using hp
    have hle : t.v ≤ s.v := by
      rw [hv, hj]
      exact h.inv.own
    have hheld : ∀ w, s.v < w → (put s j t).held cfg w ≤ s.held cfg w :=
      held_put_le fun hlt => by omega
    refine ⟨put_kept hid h hw hv (fun hc => by simp [hi] at hc)
      (fun hc => by simp [hi] at hc) (fun hc => .inr (hcalled hc))
      (fun h0 => by omega) (fun hlt => by omega) (fun w hw => (hheld w hw).trans (h.inv.few w hw))
        fun _ => hheld, hle⟩

/-- The state with the views as they were known before. -/
def known (t : ViewInfo) (lastViews : Nat → Int) : ViewInfo := { t with lastViews }

/-- What holds in the loop of `mark_stale`, where the replicas in `is` are still to come: with the
views of before, only what `Kept` says has happened; and no `NV_info` that was visited is for a
later view. -/
structure Staling (cfg : Cfg) (id : Nat) (K A : Prop) (s : ViewInfo) (is : List Nat)
    (t : ViewInfo) : Prop where
  kept : Kept cfg id K A s (t.known s.lastViews)
  views : Views id t
  visited : ∀ j, j < cfg.n → j ∉ is → (t.lastNvs j).v ≤ t.v
  quiet : 0 < cfg.f → pnvOuts t.outs = 0
  alone : cfg.f = 0 → t.lastViews = s.lastViews

/-- The replica's own view-change of the current view is stored again. -/
theorem restore_kept (h : Ok cfg id s) {vc : Option ViewChange}
    (hvc : ∀ m, vc = some m → m.id = id ∧ 0 < m.v) :
    Kept cfg id K A s { s with
      lastVcs :=
        if vc.any fun vc => vc.v == s.v then Function.update s.lastVcs id vc else s.lastVcs } := by
  split
  swap
  · exact .refl h
  rename_i hany
  obtain ⟨m, rfl, hm⟩ := (Option.any_eq_true _ _).1 hany
  have hm : m.v = s.v := by simpa using hm
  obtain ⟨hmid, hpos⟩ := hvc m rfl
  have hle := toInt_le hpos.le
  have hheld : ∀ w, s.v < w → ({ s with lastVcs := Function.update s.lastVcs id (some m) } :
    ViewInfo).held cfg w ≤ s.held cfg w := by
    intro w hw
    refine List.countP_mono_left fun i _ hi => ?_
    simp only [heldBy, Bool.or_eq_true, Option.any_eq_true] at hi ⊢
    refine hi.imp ?_ fun h => h
    rintro ⟨x, hx, hxw⟩
    by_cases hk : i = id
    · subst hk
      obtain rfl : m = x := by simpa using hx
      simp only [beq_iff_eq] at hxw
      omega
    · exact ⟨x, by simpa [hk] using hx, hxw⟩
  refine kept_of_nvs h rfl rfl ⟨h.inv.views.own, h.inv.views.nonneg,
    h.inv.views.bound, fun i x hx => ?_⟩ (fun _ => le_rfl) rfl
    (fun w hw => (hheld w hw).trans (h.inv.few w hw)) fun _ => hheld
  by_cases hk : i = id
  · subst hk
    obtain rfl : m = x := by simpa using hx
    exact ⟨hmid, hpos, by rw [h.inv.views.own]; omega⟩
  · exact h.inv.views.vcs i x (by simpa [hk] using hx)

/-- The first part of `staleOne`. -/
def dropVC (id i : Nat) (t : ViewInfo) : ViewInfo := { t with
  lastVcs := if i = id then t.lastVcs else Function.update t.lastVcs i none
  lastViews :=
    if i ≠ id ∧ t.v ≤ t.lastViews i then Function.update t.lastViews i t.v else t.lastViews
  myVacks := Function.update t.myVacks i none }

theorem dropVC_lastVcs {i k : Nat} {m : ViewChange} (h : (dropVC id i t).lastVcs k = some m) :
    t.lastVcs k = some m ∧ (k = i → k = id) := by
  have h : (if i = id then t.lastVcs else Function.update t.lastVcs i none) k = some m := h
  split at h
  · exact ⟨h, fun hk => hk.trans ‹i = id›⟩
  · by_cases hk : k = i
    · subst hk
      simp at h
    · exact ⟨by simpa [hk] using h, fun he => absurd he hk⟩

theorem dropVC_lastViews (t : ViewInfo) (id i k : Nat) :
    (dropVC id i t).lastViews k = t.lastViews k ∨
    k = i ∧ k ≠ id ∧ t.v ≤ t.lastViews k ∧ (dropVC id i t).lastViews k = t.v := by
  simp only [dropVC]
  split
  · rename_i hc
    by_cases hk : k = i
    · subst hk
      exact .inr ⟨rfl, hc.1, hc.2, by simp⟩
    · exact .inl (by simp [hk])
  · exact .inl rfl

theorem dropVC_views (h : Views id t) (i : Nat) : Views id (dropVC id i t) := by
  have hv : (dropVC id i t).v = t.v := rfl
  have hnn : 0 ≤ t.v := h.own ▸ h.nonneg id
  refine ⟨?_, fun k => ?_, fun k hk => ?_, fun k m hm => ?_⟩
  · rw [hv]
    rcases dropVC_lastViews t id i id with he | ⟨-, hne, -⟩
    · exact he.trans h.own
    · exact absurd rfl hne
  · rcases dropVC_lastViews t id i k with he | ⟨-, -, -, he⟩
    · rw [he]
      exact h.nonneg k
    · rw [he]
      exact hnn
  · rcases dropVC_lastViews t id i k with he | ⟨-, -, hle, he⟩
    · rw [he]
      exact h.bound k hk
    · rw [he]
      exact hle.trans_lt (h.bound k hk)
  · obtain ⟨hm, hki⟩ := dropVC_lastVcs hm
    obtain ⟨h1, h2, h3⟩ := h.vcs k m hm
    rcases dropVC_lastViews t id i k with he | ⟨hk, hne, -⟩
    · exact ⟨h1, h2, he ▸ h3⟩
    · exact absurd (hki hk) hne

/-- The view-change that `mark_stale` returns is the replica's own one. -/
theorem staled_own (h : Inv cfg id s) {r : Option ViewChange} {t : NVInfo}
    (ht : NVInfo.Staled (s.nvEnv cfg id) (s.lastNvs j) r t) :
    ∀ m, r = some m → m.id = id ∧ 0 < m.v := by
  rintro m rfl
  rcases ht with ⟨-, -, hr⟩ | ⟨-, -, hr⟩ | ⟨-, -, -, -, -, -, hr⟩
  · cases hr
  · obtain ⟨h1, -, h3⟩ := (h.wf j).range id m hr.symm
    have hne : (s.lastNvs j).v ≠ 0 := by
      intro h0
      rw [h.zero j h0] at hr
      simp [NVInfo.vcOf, NVInfo.new, NVInfo.noVC] at hr
    have := (h.prim j hne).1
    exact ⟨h1, by omega⟩
  · cases hr

theorem staleOne_staling (hid : id < cfg.n) {i : Nat} {is : List Nat} (hi : i < cfg.n)
    (h : Staling cfg id K A s (i :: is) t) :
    Ensures (staleOne cfg id i) t (fun _ u => Staling cfg id K A s is u)
      (fun u => Lost cfg id K A s u) := by
  set t1 := dropVC id i t with ht1
  have hk1 : Kept cfg id K A s (t1.known s.lastViews) :=
    h.kept.trans
      (kept_of_eq h.kept.ok rfl rfl rfl (fun k m hm => (dropVC_lastVcs (t := t) hm).1) rfl)
  have hc : (t1.lastNvs i).calls = [] := hk1.ok.inv.calls i
  have hviews := dropVC_views h.views i
  have hquiet : Ensures (NVInfo.markStale (t1.nvEnv cfg id))
    (t1.lastNvs i) (fun _ n => 0 < cfg.f → n.calls = [])
      (fun n => 0 < cfg.f → n.calls = []) := by
    by_cases hf : 0 < cfg.f
    · exact (NVInfo.markStale_quiet hf hc).imp (fun _ _ h _ => h) fun _ h _ => h
    · exact Ensures.of_result (fun _ _ hf' => absurd hf' hf) fun _ hf' => absurd hf' hf
  have hpnv : ∀ {n : NVInfo}, (0 < cfg.f → n.calls = []) →
    0 < cfg.f → pnvOuts (put t1 i n).outs = 0 := by
    intro n hn hf
    rw [pnvOuts_put, hn hf]
    exact h.quiet hf
  have hop := (NVInfo.markStale_staled (V := t1.nvEnv cfg id) hid hc).and hquiet
  obtain ⟨h1, h2⟩ := hop.result
  refine Reaches.modify_bind trivial ?_
  refine Ensures.bind (Q := fun r u => ∃ n, u = put t1 i n ∧
    NVInfo.Staled (t1.nvEnv cfg id) (t1.lastNvs i) r n ∧
    (0 < cfg.f → n.calls = [])) ?_ ?_
  · refine Ensures.of_result (fun r hr => ⟨_, rfl, (h1 r hr).1, (h1 r hr).2⟩) fun hn => ?_
    obtain ⟨hst, hq⟩ := h2 hn
    by_cases hf : 0 < cfg.f
    · exact .inr (hpnv hq hf)
    -- the replica is alone, and has dropped nothing
    have hi0 : i = id := by
      unfold Cfg.n at hi hid
      omega
    have heq : t1 = t1.known s.lastViews := by
      have hlv : t1.lastViews = s.lastViews := by
        rw [← h.alone (by omega), ht1]
        simp [dropVC, hi0]
      exact congrArg t1.known hlv
    have hput : ∀ n, put t1 i n = put (t1.known s.lastViews) i n :=
      fun n => congrArg (fun u => put u i n) heq
    change Lost cfg id K A s (put t1 i (NVInfo.markStale (t1.nvEnv cfg id) (t1.lastNvs i)).2)
    rcases hst with ⟨r, hst⟩ | ⟨hinc, hpos, hp, hcalls⟩
    · rw [hput]
      exact .inl (hk1.trans (put_staled_kept hid hk1.ok hst).1)
    · refine .inr ?_
      have hinv := hk1.ok.inv
      obtain ⟨-, hge, hprim⟩ := hinv.prim i hpos.ne'
      have hv : (t1.lastNvs i).v = t1.v := le_antisymm (hi0 ▸ hinv.own) hge
      have hno : ¬(t1.known s.lastViews).hasNewView cfg t1.v = true := by
        have hprim : cfg.primary (t1.lastNvs i).v = i := hprim
        unfold hasNewView
        rw [← hv, hprim]
        change ¬(t1.lastNvs i).isComplete = true
        simp [hinc]
      have hone := hk1.ok.once
      have hne : pnvOuts t1.outs ≠ 1 := fun h1 => hno (hk1.ok.complete h1)
      have hle : pnvOuts t1.outs ≤ 1 := hone
      rw [pnvOuts_put, hcalls]
      omega
  · rintro r _ ⟨n, rfl, hst, hq⟩
    obtain ⟨hk2, hle⟩ := put_staled_kept (K := K) (A := A) hid hk1.ok hst
    have hown := staled_own hk1.ok.inv hst
    have hk3 := restore_kept (K := K) (A := A) hk2.ok hown
    refine Reaches.modify trivial ⟨?_, ?_, ?_, ?_, ?_⟩
    · exact hk1.trans (hk2.trans (hk3.trans (kept_of_eq hk3.ok rfl rfl rfl (fun _ _ h => h) rfl)))
    · refine ⟨hviews.own, hviews.nonneg, hviews.bound, fun k m hm => ?_⟩
      simp only at hm
      split at hm
      · rename_i hany
        by_cases hk : k = id
        · subst hk
          obtain ⟨m', rfl, hv⟩ := (Option.any_eq_true _ _).1 hany
          obtain rfl : m' = m := by simpa using hm
          obtain ⟨h1, h2⟩ := hown m' rfl
          have hv : m'.v = t1.v := beq_iff_eq.1 hv
          refine ⟨h1, h2, ?_⟩
          have hle := toInt_le h2.le
          have hlv : (put t1 i n).lastViews k = t1.v := hviews.own
          simp only [hlv]
          omega
        · have hm : (put t1 i n).lastVcs k = some m := by simpa [hk] using hm
          exact hviews.vcs k m hm
      · exact hviews.vcs k m hm
    · intro j hj hnot
      by_cases hji : j = i
      · subst hji
        simp only [put_lastNvs_self]
        exact hle
      · have := h.visited j hj (by simp [hji, hnot])
        have heq : (put t1 i n).lastNvs j = t.lastNvs j := put_lastNvs_of_ne n hji
        simp only [heq]
        exact this
    · exact fun hf => hpnv hq hf
    · intro hf
      have hi0 : i = id := by
        unfold Cfg.n at hi hid
        omega
      rw [← h.alone hf]
      simp [put, ht1, dropVC, hi0]

/-- **`mark_stale`** forgets the later views. -/
theorem markStale_keeps (hid : id < cfg.n) (h : Ok cfg id s) (houts : pnvOuts s.outs = 0) :
    Keeps K A cfg id (markStale cfg id) s := by
  have hstart : Staling cfg id K A s (List.range cfg.n) s :=
    ⟨.refl h, h.inv.views, fun j hj hnot => absurd (List.mem_range.2 hj) hnot,
      fun _ => houts, fun _ => rfl⟩
  have hloop : ∀ (is : List Nat) (t : ViewInfo), (∀ i ∈ is, i < cfg.n) → Staling cfg id K A s is t →
      Ensures (each (staleOne cfg id) is) t (fun _ u => Staling cfg id K A s [] u)
        (fun u => Lost cfg id K A s u) := by
    intro is
    induction is with
    | nil => exact fun t _ ht => Reaches.pure ht
    | cons i is ih =>
      intro t hlt ht
      refine Ensures.bind (staleOne_staling hid (hlt i (by simp)) ht) fun _ u hu => ?_
      exact ih u (fun k hk => hlt k (by simp [hk])) hu
  refine Reaches.mono (hloop _ s (fun i hi => List.mem_range.1 hi) hstart) fun _ t ht => ?_
  have hinv := ht.kept.ok.inv
  have hlater : ∀ j, (t.lastNvs j).v ≤ t.v := by
    intro j
    by_cases hj : j < cfg.n
    · exact ht.visited j hj (by simp)
    · have hz : (t.lastNvs j).v = 0 := by
        by_contra hne
        have := (hinv.prim j hne).2.2
        have := cfg.primary_lt ((t.known s.lastViews).lastNvs j).v
        omega
      rw [hz]
      exact hinv.nonneg
  refine ⟨⟨⟨ht.views, hinv.few, hinv.zero, hinv.calls, hinv.prim,
    hinv.own, hinv.wf, fun j hlt => ?_⟩, ht.kept.ok.once,
    ht.kept.ok.complete⟩, ht.kept.v, ht.kept.held, ht.kept.keeps, ht.kept.called⟩
  have := hlater j
  omega

/-! ## Entering a view -/

theorem add_header {P : Params} {vc vc' : ViewChange} {a : ViewChange.Add}
    (h : ViewChange.add P vc a = some vc') :
    vc'.v = vc.v ∧ vc'.id = vc.id := by
  cases a with
  | checkpoint n d =>
    simp only [ViewChange.add, ViewChange.addCheckpoint] at h
    split at h
    · cases h
      exact ⟨rfl, rfl⟩
    · cases h
  | request n v lv d prepared =>
    simp only [ViewChange.add, ViewChange.addRequest] at h
    split at h
    · simp only [Option.bind_eq_bind, Option.bind_eq_some_iff] at h
      obtain ⟨w, hw, h⟩ := h
      have hw' : w.v = vc.v ∧ w.id = vc.id := by
        simp only [ViewChange.markIf, ViewChange.mark] at hw
        split at hw
        · split at hw
          · cases hw
            exact ⟨rfl, rfl⟩
          · cases hw
        · cases hw
          exact ⟨rfl, rfl⟩
      split at h <;> cases h <;> exact hw'
    · cases h

theorem build_header {P : Params} {buf : ViewChange.Buffer P} {v ls : Int}
    {adds : List ViewChange.Add} {vc : ViewChange}
    (h : ViewChange.build P buf v ls id adds = some vc) : vc.v = v ∧ vc.id = id := by
  have hfold : ∀ (adds : List ViewChange.Add) (w : ViewChange),
    adds.foldlM (ViewChange.add P) w = some vc →
      vc.v = w.v ∧ vc.id = w.id := by
    intro adds
    induction adds with
    | nil =>
      intro w hw
      cases hw
      exact ⟨rfl, rfl⟩
    | cons a adds ih =>
      intro w hw
      simp only [List.foldlM_cons, Option.bind_eq_bind, Option.bind_eq_some_iff] at hw
      obtain ⟨w', hw', hw⟩ := hw
      have h1 := add_header hw'
      have h2 := ih w' hw
      exact ⟨h2.1.trans h1.1, h2.2.trans h1.2⟩
  exact hfold _ _ h

theorem buildViewChange_header {word : Nat → BitVec 64} {entry : Nat → ReqInfo} {le : Int}
    {digest : Int → Option Digest} {vc : ViewChange}
    (h : s.buildViewChange cfg id word entry le digest = some vc) : vc.v = s.v ∧ vc.id = id := by
  simp only [buildViewChange] at h
  split at h
  · cases h
  · simp only [Option.bind_eq_bind, Option.bind_eq_some_iff] at h
    obtain ⟨w, hw, h⟩ := h
    split at h
    · cases h
      exact build_header hw
    · cases h

/-- The state of a replica that has sent its view-change for view `v`. -/
def entered (s : ViewInfo) (id : Nat) (v : Int) (vc : ViewChange) : ViewInfo :=
  let t := discardOld { s with v }
  { t with
    outs := t.outs ++ [.send none (.viewChange vc)]
    lastVcs := Function.update t.lastVcs id (some vc)
    lastViews := Function.update t.lastViews id v }

theorem entered_nv (v : Int) (vc : ViewChange) (k : Nat) :
    (entered s id v vc).lastNvs k = if (s.lastNvs k).v < v then (s.lastNvs k).clear
      else s.lastNvs k := rfl

theorem entered_held_le (h : Inv cfg id s) {v : Int} (hv : s.v < v) {vc : ViewChange}
    (hvc : vc.v = v) {w : Int} (hw : v < w) :
    (entered s id v vc).held cfg w ≤ s.held cfg w := by
  have hnn := h.nonneg
  refine List.countP_mono_left fun i _ hi => ?_
  simp only [heldBy, Bool.or_eq_true, Bool.and_eq_true, beq_iff_eq, Option.any_eq_true] at hi ⊢
  rcases hi with ⟨m, hm, hmw⟩ | hnv
  · left
    by_cases hk : i = id
    · subst hk
      obtain rfl : vc = m := by simpa [entered] using hm
      have := toInt_le (x := vc.v) (by omega)
      omega
    · have hm : (s.lastVcs i).filter (fun vc => decide (v ≤ vc.v)) = some m := by
        simpa [entered, discardOld, hk] using hm
      exact ⟨m, (Option.filter_eq_some_iff.1 hm).1, hmw⟩
  · right
    rw [entered_nv] at hnv
    split at hnv
    · have h0 : (0 : Int) = w := hnv.1
      omega
    · exact hnv

/-- **Entering a view**: no new view is known for it. -/
theorem entered_ok (hid : id < cfg.n) (h : Ok cfg id s) (houts : pnvOuts s.outs = 0) {v : Int}
    (hv : s.v < v) {vc : ViewChange} (hvc : vc.v = v) (hvid : vc.id = id) :
    Ok cfg id (entered s id v vc) ∧ (entered s id v vc).hasNewView cfg v = false ∧
      ((entered s id v vc).lastNvs id).v = 0 := by
  have hnn := h.inv.nonneg
  have hclear := h.inv.clear_eq
  -- an `NV_info` was cleared, or it is for the new view or a later one
  have hcase : ∀ {P : Nat → NVInfo → Prop}, (∀ k, P k NVInfo.new) →
      (∀ k, (s.lastNvs k).v ≠ 0 → v ≤ (s.lastNvs k).v → P k (s.lastNvs k)) → ∀ k,
        P k ((entered s id v vc).lastNvs k) := by
    intro P h1 h2 k
    rw [entered_nv]
    split
    · rw [hclear k]
      exact h1 k
    · exact h2 k (by omega) (by omega)
  have hviews : (entered s id v vc).lastViews = Function.update s.lastViews id v := rfl
  have hle : ∀ k, s.lastViews k ≤ (entered s id v vc).lastViews k := by
    intro k
    rw [hviews]
    by_cases hk : k = id
    · subst hk
      rw [Function.update_self, h.inv.views.own]
      exact hv.le
    · simp [hk]
  have hpnv : pnvOuts (entered s id v vc).outs = 0 := by simp [entered, discardOld, houts]
  have hzero : ((entered s id v vc).lastNvs id).v = 0 := by
    have := h.inv.own
    rw [entered_nv, if_pos (by omega), hclear]
    rfl
  have hviews' : Views id (entered s id v vc) := by
    refine ⟨by rw [hviews, Function.update_self]; rfl,
      fun k => (h.inv.views.nonneg k).trans (hle k), ?_, ?_⟩
    · intro k hk
      rw [hviews, Function.update_of_ne hk]
      exact h.inv.views.bound k hk
    · intro k m hm
      by_cases hk : k = id
      · subst hk
        obtain rfl : vc = m := by simpa [entered] using hm
        refine ⟨hvid, by omega, ?_⟩
        rw [hviews, Function.update_self, hvc]
        exact toInt_le (by omega)
      · have hm : (s.lastVcs k).filter (fun vc => decide (v ≤ vc.v)) = some m := by
          simpa [entered, discardOld, hk] using hm
        obtain ⟨h1, h2, h3⟩ := h.inv.views.vcs k m (Option.filter_eq_some_iff.1 hm).1
        exact ⟨h1, h2, h3.trans (hle k)⟩
  have hinv : Inv cfg id (entered s id v vc) := by
    have hlv : (entered s id v vc).v = v := rfl
    refine ⟨hviews', fun w hw =>
      (entered_held_le h.inv hv hvc (hlv ▸ hw)).trans (h.inv.few w (by omega)), ?_, ?_, ?_,
      by rw [hzero]; exact hnn.trans hv.le, ?_, ?_⟩
    · exact hcase (P := fun _ nv => nv.v = 0 → nv = NVInfo.new) (fun _ _ => rfl)
        fun k _ _ => h.inv.zero k
    · exact hcase (P := fun _ nv => nv.calls = []) (fun _ => rfl) fun k _ _ => h.inv.calls k
    · refine hcase (P := fun k nv => nv.v ≠ 0 → 0 < nv.v ∧ v ≤ nv.v ∧ cfg.primary nv.v = k)
        (fun _ h0 => absurd rfl h0) ?_
      intro k hk hge _
      obtain ⟨h1, -, h3⟩ := h.inv.prim k hk
      exact ⟨h1, hge, h3⟩
    · exact hcase (P := fun _ nv => NVInfo.Wf ((entered s id v vc).nvEnv cfg id) nv)
        (fun _ => NVInfo.wf_new [] rfl 0 none 0)
        fun k _ _ => (h.inv.wf k).env rfl rfl s.nvEnv_finds
    · refine hcase (P := fun _ nv => v < nv.v → ∀ i x,
        nv.vcOf i = some x → nv.v ≤ (entered s id v vc).lastViews i) ?_ ?_
      · intro _ hlt
        have : v < 0 := hlt
        omega
      · exact fun k _ _ hlt i x hx => (h.inv.stored k (by omega) i x hx).trans (hle i)
  refine ⟨⟨hinv, by omega, fun h1 => by omega⟩, ?_, hzero⟩
  -- the new view of a later view was not decided
  unfold hasNewView
  rw [entered_nv]
  split
  · rw [hclear]
    rfl
  · rename_i hge
    by_contra hne
    have := h.inv.not_later hid (j := cfg.primary v) (by simpa using hne)
    omega

/-- The state `u` is the one that `view_change(v, …)` starts the new view with. -/
structure Entered (cfg : Cfg) (nv : Int) (s u : ViewInfo) : Prop where
  v : u.v = nv
  none : u.hasNewView cfg nv = false
  held : ∀ w, nv < w → u.held cfg w ≤ s.held cfg w
  outs : pnvOuts u.outs = 0

/-- **`view_change(v, …)`**: from there on, it is an operation of the new view. -/
theorem viewChange_ensures (hid : id < cfg.n) (h : Ok cfg id s) (houts : pnvOuts s.outs = 0)
    {v : Int} (hv : s.v < v) (le : Int) (word : Nat → BitVec 64) (entry : Nat → ReqInfo)
    (digest : Int → Option Digest) :
    Ensures (viewChange cfg id v le word entry digest) s
      (fun _ t => ∃ u, Entered cfg v s u ∧ Kept cfg id K A u t)
      (fun t => (∃ u, Entered cfg v s u ∧ Kept cfg id K A u t) ∨ pnvOuts t.outs = 0) := by
  refine Reaches.modify_bind trivial
    (Reaches.get_bind (Reaches.ofOption_bind (.inr houts) fun vc hvc => ?_))
  have hbuilt : vc.v = v ∧ vc.id = id := buildViewChange_header hvc
  obtain ⟨hok, hno, hz⟩ := entered_ok hid h houts hv hbuilt.1 hbuilt.2
  refine Reaches.modify_bind trivial (Reaches.modify_bind trivial ?_)
  have hdone : ∀ {x : Prog ViewInfo Unit}, Keeps K A cfg id x (entered s id v vc) →
      Ensures x (entered s id v vc) (fun _ t => ∃ u, Entered cfg v s u ∧ Kept cfg id K A u t)
        (fun t => (∃ u, Entered cfg v s u ∧ Kept cfg id K A u t) ∨ pnvOuts t.outs = 0) := by
    intro x hx
    have hu : Entered cfg v s (entered s id v vc) := ⟨rfl,
      hno, fun w hw => entered_held_le h.inv hv hbuilt.1 hw, by simp [entered, discardOld, houts]⟩
    exact Reaches.weaken (Reaches.mono hx fun _ t ht => ⟨_, hu, ht⟩) (fun _ _ h => h)
      fun _ t ht => ht.imp (fun ht => ⟨_, hu, ht⟩) fun h => h
  have hnn := h.inv.nonneg
  refine Reaches.ite (fun hp => hdone ?_) fun _ => hdone ?_
  · exact startNewView_keeps hid hok hp (by show 0 < v; omega) hz
  · exact .each kept_composes (.refl hok) (fun i u hu => ackOther_keeps hu.ok vc i) _

end ViewInfo

end TinyBFT
