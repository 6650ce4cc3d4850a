import TinyBFT.Handlers

/-!
# The sequence numbers of the primary

A primary creates pre-prepares in `send_pre_prepare`, `send_null` and `process_new_view`
(`Replica::created`). It never gives a sequence number of a view twice, and never one above the
window. One at or below the stable checkpoint it does give out: `process_new_view` sets `seqno = max
- 1` (`Replica.cc:1147`), where `max` comes from the view-changes of other replicas, and unless it
calls `mark_stable` nothing raises `seqno` to `last_stable` again.

The invariant `Inv` says where the next sequence number comes from. A handler is in one of these
places (`Place`): in view `v`; while `mark_stable` has raised `last_stable` and not yet `seqno`,
`late` holds of the new one; while `process_new_view` still has pre-prepares to log, these are
`reserved`; and between a view-change message and joining its view, `held` is one more than `f`.
-/

namespace TinyBFT

namespace Replica

open Prog (Ensures Reaches Within Composes Holds get modify assert ofOption when each)
open ViewInfo (pnvOuts)

variable (cfg : Cfg) (id : Nat)

/-- The new views that the primary processed begin above its stable checkpoint. -/
def Above (s : Replica) : Prop := ∀ c ∈ s.newViews, c.1 < c.2

/-- What is to be shown of the pre-prepares created so far. -/
structure Numbered (s : Replica) : Prop where
  below : ∀ c ∈ s.created, c.1.seqno ≤ c.2 + cfg.P.maxOut
  above : Above s → ∀ c ∈ s.created, c.2 < c.1.seqno
  unique : ∀ a ∈ s.created, ∀ b ∈ s.created, a.1.view = b.1.view → a.1.seqno = b.1.seqno → a.1 = b.1

/-- Where in a handler the replica is. -/
structure Place where
  v : Int
  late : Int → Prop
  reserved : Int → Prop
  held : Nat

/-- Between two events, in view `v`. -/
def Place.boundary (v : Int) : Place := ⟨v, fun _ => False, fun _ => False, cfg.f⟩

structure Inv (p : Place) (s : Replica) : Prop where
  numbered : Numbered cfg s
  vi : ViewInfo.Ok cfg id s.vi
  outs : s.vi.outs = []
  v : s.v = p.v
  viV : s.vi.v = s.v
  held : ∀ w, s.v < w → s.vi.held cfg w ≤ p.held
  views : ∀ c ∈ s.created, c.1.view ≤ s.v ∧ cfg.primary c.1.view = id
  current : ∀ c ∈ s.created, c.1.view = s.v → c.1.seqno ≤ s.seqno ∧ ¬p.reserved c.1.seqno
  reserved : ∀ n, p.reserved n → n ≤ s.seqno ∧ cfg.primary s.v = id ∧ s.vi.hasNewView cfg s.v = true
  fresh : s.v ≠ 0 → s.vi.hasNewView cfg s.v = false → ∀ c ∈ s.created, c.1.view ≠ s.v
  window : Above s → cfg.primary s.v = id → s.v = 0 ∨ s.vi.hasNewView cfg s.v = true →
    s.lastStable ≤ s.seqno ∨ p.late s.lastStable

/-- A `process_new_view` is due: its `NV_info` is complete, and nothing was created in the view. -/
structure Pending (p : Place) (s : Replica) : Prop where
  numbered : Numbered cfg s
  vi : ViewInfo.Ok cfg id s.vi
  outs : s.vi.outs = []
  v : s.v = p.v
  viV : s.vi.v = s.v
  held : ∀ w, s.v < w → s.vi.held cfg w ≤ p.held
  views : ∀ c ∈ s.created, c.1.view ≤ s.v ∧ cfg.primary c.1.view = id
  reserved : ∀ n, ¬p.reserved n
  complete : s.vi.hasNewView cfg s.v = true
  fresh : ∀ c ∈ s.created, c.1.view ≠ s.v

variable {cfg id} {p p' : Place} {s t u : Replica} {α : Type} {h : NVCall → Prog Replica Unit}

theorem Numbered.of_eq (hs : Numbered cfg s) (hc : t.created = s.created)
    (hn : t.newViews = s.newViews) : Numbered cfg t :=
  ⟨by rw [hc]; exact hs.below,
    fun ha => by rw [hc]; exact hs.above fun c hc => ha c (by rw [hn]; exact hc),
    by rw [hc]; exact hs.unique⟩

theorem Aside.above (h : Aside s t) (ha : Above t) : Above s :=
  fun c hc => ha c (by rw [h.newViews]; exact hc)

theorem Aside.numbered (h : Aside s t) (hs : Numbered cfg s) : Numbered cfg t :=
  hs.of_eq h.created h.newViews

/-- The fields that `Inv` depends on are the same. -/
theorem Inv.of_eq (hs : Inv cfg id p s) (hv : t.v = s.v) (hvi : t.vi = s.vi)
    (hls : t.lastStable = s.lastStable) (hseq : t.seqno = s.seqno) (hc : t.created = s.created)
    (hn : t.newViews = s.newViews) : Inv cfg id p t := by
  refine ⟨hs.numbered.of_eq hc hn, ?_, ?_, ?_, ?_, ?_, ?_, ?_, ?_, ?_, fun ha => ?_⟩ <;>
    simp only [hv, hvi, hls, hseq, hc]
  exacts [hs.vi, hs.outs, hs.v, hs.viV, hs.held, hs.views,
    hs.current, hs.reserved, hs.fresh, hs.window fun c hc => ha c (hn ▸ hc)]

theorem Aside.inv (h : Aside s t) (hs : Inv cfg id p s) : Inv cfg id p t :=
  hs.of_eq h.v h.vi h.lastStable h.seqno h.created h.newViews

theorem Aside.pending (h : Aside s t) (hs : Pending cfg id p s) : Pending cfg id p t := by
  refine ⟨h.numbered hs.numbered, ?_, ?_, ?_, ?_, ?_, ?_, hs.reserved, ?_, ?_⟩ <;>
    simp only [h.v, h.vi, h.created]
  exacts [hs.vi, hs.outs, hs.v, hs.viV, hs.held, hs.views, hs.complete, hs.fresh]

theorem Pending.bears : Bears (Pending cfg id p) (Inv cfg id p) (Numbered cfg) :=
  ⟨fun _ _ h => h.pending, fun _ _ h => h.inv, fun _ _ h =>
    h.numbered, fun _ hs => hs.numbered, fun _ hs => hs.numbered⟩

/-- The program keeps the invariant at the place `p`. -/
abbrev Keeps (cfg : Cfg) (id : Nat) (p : Place) (x : Prog Replica α) : Prop :=
  Holds (Inv cfg id p) (Numbered cfg) x

theorem Keeps.apply {x : Prog Replica α} (hx : Keeps cfg id p x) (hs : Inv cfg id p s) :
    Ensures x s (fun _ t => Inv cfg id p t) (Numbered cfg) := hx s hs

theorem Quiet.keeps {x : Prog Replica α} (hx : Quiet x) : Keeps cfg id p x :=
  .of_within hx (fun _ _ h hs => h.inv hs) fun _ hs => hs.numbered

/-- The certificate of a sequence number is no matter of the numbering. -/
theorem setP_keeps (n : Int) (c : PreparedCert) : Keeps cfg id p (setP cfg n c) :=
  .modify fun _ hs => hs.of_eq rfl rfl rfl rfl rfl rfl

theorem stalePC_keeps (n : Int) : Keeps cfg id p (stalePC cfg id n) := by
  have hnum : ∀ s, Inv cfg id p s → Numbered cfg s := fun _ hs => hs.numbered
  refine .bind (fetchP_quiet cfg n).keeps fun pc => .get_bind
    fun s => .ofOption_bind hnum fun _ => .bind (setP_keeps n _) fun _ => ?_
  exact .bind (fetchC_quiet cfg n).keeps fun cc => .ofOption_bind hnum
    fun _ => (setC_quiet cfg n _).keeps

/-- A place with more left open. -/
theorem Inv.weaken (hs : Inv cfg id p s) (hv : p'.v = p.v) (hl : ∀ n, p.late n → p'.late n)
    (hr : ∀ n, p'.reserved n → p.reserved n) (hh : p.held ≤ p'.held) : Inv cfg id p' s where
  numbered := hs.numbered
  vi := hs.vi
  outs := hs.outs
  v := hs.v.trans hv.symm
  viV := hs.viV
  held w hw := (hs.held w hw).trans hh
  views := hs.views
  current c hc hcv := ⟨(hs.current c hc hcv).1, fun hn => (hs.current c hc hcv).2 (hr _ hn)⟩
  reserved n hn := hs.reserved n (hr n hn)
  fresh := hs.fresh
  window ha hp hnew := (hs.window ha hp hnew).imp (fun h => h) (hl _)

/-- `seqno` only grows within a view. -/
theorem Inv.raise (hs : Inv cfg id p s) {n : Int} (hn : s.seqno ≤ n) :
    Inv cfg id p { s with seqno := n } where
  numbered := hs.numbered.of_eq rfl rfl
  vi := hs.vi
  outs := hs.outs
  v := hs.v
  viV := hs.viV
  held := hs.held
  views := hs.views
  current c hc hcv := ⟨(hs.current c hc hcv).1.trans hn, (hs.current c hc hcv).2⟩
  reserved m hm := ⟨(hs.reserved m hm).1.trans hn, (hs.reserved m hm).2⟩
  fresh := hs.fresh
  window ha hp hnew := (hs.window ha hp hnew).imp (fun h => h.trans hn) fun h => h

/-! ## What the `NV_info`s ask for -/

/-- The handler of the calls processes a new view that is due, at any place. -/
abbrev ServesPlaces (cfg : Cfg) (id : Nat) (h : NVCall → Prog Replica Unit) : Prop :=
  ∀ p, Serves h (Pending cfg id p) (Inv cfg id p) (Numbered cfg)

variable {A : Prop} {w : ViewInfo} {q : Nat}

theorem served_inv (hs : Inv cfg id p s) (hk : ViewInfo.Kept cfg id (cfg.primary s.v = id) A s.vi w)
    (hq : ∀ v, s.v < v → w.held cfg v ≤ q) (h0 : pnvOuts w.outs = 0) :
    Inv cfg id { p with held := q } { s with vi := { w with outs := [] } } := by
  have hv : w.v = s.v := hk.v.trans hs.viV
  have hnew : cfg.primary s.v = id →
    (w.hasNewView cfg s.v = true ↔ s.vi.hasNewView cfg s.v = true) := by
    intro hp
    have hkeeps := hk.keeps hp
    have hcalled := hk.called hp
    rw [hv, hs.viV] at hkeeps hcalled
    exact ⟨fun ht => (hcalled ht).resolve_right (by omega), fun ht => (hkeeps ht).1⟩
  refine ⟨hs.numbered.of_eq rfl rfl, hk.ok.served, rfl,
    hs.v, hv, hq, hs.views, hs.current, fun n hn => ?_, fun h0 hno c hc he => ?_,
    fun ha hp hc => ?_⟩
  · obtain ⟨h1, h2, h3⟩ := hs.reserved n hn
    exact ⟨h1, h2, (hnew h2).2 h3⟩
  · have hp : cfg.primary s.v = id := he ▸ (hs.views c hc).2
    refine hs.fresh h0 ?_ c hc he
    by_contra hne
    have hcomp := (hnew hp).2 (by simpa using hne)
    have hno : w.hasNewView cfg s.v = false := hno
    simp [hcomp] at hno
  · exact hs.window ha hp (hc.imp (fun h => h) fun h => (hnew hp).1 h)

theorem served_pending (hs : Inv cfg id p s)
    (hk : ViewInfo.Kept cfg id (cfg.primary s.v = id) A s.vi w)
    (hq : ∀ v, s.v < v → w.held cfg v ≤ q) (h1 : pnvOuts w.outs = 1) :
    Pending cfg id { p with held := q } { s with vi := { w with outs := [] } } := by
  have hv : w.v = s.v := hk.v.trans hs.viV
  have hcomp : w.hasNewView cfg s.v = true := hv ▸ hk.ok.complete h1
  have hno : cfg.primary s.v = id → s.vi.hasNewView cfg s.v = false := by
    intro hp
    by_contra hne
    have := (hk.keeps hp (by rw [hs.viV]; simpa using hne)).2
    rw [h1, hs.outs] at this
    cases this
  refine ⟨hs.numbered.of_eq rfl rfl, hk.ok.served, rfl,
    hs.v, hv, hq, hs.views, fun n hn => ?_, hcomp, fun c hc he => ?_⟩
  · obtain ⟨-, h2, h3⟩ := hs.reserved n hn
    simp [hno h2] at h3
  · have hp : cfg.primary s.v = id := he ▸ (hs.views c hc).2
    refine hs.fresh (fun h0 => ?_) (hno hp) c hc he
    -- there is no new view for view `0`
    have hown := hk.ok.inv.own
    have hcomp : (w.lastNvs (cfg.primary s.v)).isComplete = true := hcomp
    rw [hp] at hcomp
    have hne : (w.lastNvs id).v ≠ 0 := by
      intro hz
      rw [hk.ok.inv.zero id hz] at hcomp
      cases hcomp
    have := (hk.ok.inv.prim id hne).1
    omega

/-- **An operation of `vi`**: with sequence numbers reserved, the new view is complete, and none is
processed. -/
theorem onVi_inv {op : Prog ViewInfo α} (q : Option α → Nat) (hh : ServesPlaces cfg id h)
    (hs : Inv cfg id p s) (hop : ViewInfo.Keeps (cfg.primary s.v = id) A cfg id op s.vi)
    (hsilent : Silent op) (hq : ViewInfo.Kept cfg id (cfg.primary s.v = id) A s.vi (op s.vi).2 →
      ∀ v, s.v < v → (op s.vi).2.held cfg v ≤ q (op s.vi).1) :
    Ensures (onVi h op) s (fun a t => Inv cfg id { p with held := q (some a) } t ∧
        (op s.vi).1 = some a ∧
      ((∃ n, p.reserved n) → t.lastStable = s.lastStable)) (Numbered cfg) := by
  refine (onVi_ensures (D := fun o => Pending cfg id { p with held := q o })
    (I := fun o => Inv cfg id { p with held := q o })
    (fun _ => Pending.bears) (fun _ => hh _) hop hsilent
      hs.outs (hs.numbered.of_eq rfl rfl) (fun hk h0 => served_inv hs hk (hq hk) h0)
    fun hk h1 => served_pending hs hk (hq hk) h1).imp (fun a t ht => ⟨ht.1, ht.2.1, ?_⟩)
      fun _ h => h
  rintro ⟨n, hn⟩
  have hk := hop.result.1 a ht.2.1
  obtain ⟨-, hp, hnew⟩ := hs.reserved n hn
  refine (ht.2.2 ?_).lastStable
  rw [(hk.keeps hp (by rw [hs.viV]; exact hnew)).2, hs.outs]
  rfl

theorem onVi_keeps {op : Prog ViewInfo α} (hh : ServesPlaces cfg id h) (hs : Inv cfg id p s)
    (hop : ViewInfo.Keeps (cfg.primary s.v = id) True cfg id op s.vi) (hsilent : Silent op) :
    Ensures (onVi h op) s (fun _ t => Inv cfg id p t) (Numbered cfg) := by
  refine (onVi_inv (fun _ => p.held) hh hs hop hsilent
    fun hk v hv => ?_).imp (fun _ t ht => ht.1) fun _ h => h
  exact (hk.held trivial v (by rw [hs.viV]; exact hv)).trans (hs.held v hv)

/-! ## Creating a pre-prepare -/

/-- A pre-prepare with a sequence number of the current view that was not used is created. -/
theorem created_inv (hs : Inv cfg id p s) (hp : cfg.primary s.v = id)
    (hnew : s.v = 0 ∨ s.vi.hasNewView cfg s.v = true) {pp : PrePrepareMsg} {n : Int}
    (hv : pp.view = s.v) (hn : s.seqno ≤ n) (hle : pp.seqno ≤ n)
    (hunused : ∀ c ∈ s.created, c.1.view = s.v → c.1.seqno ≠ pp.seqno) (hr : ¬p.reserved pp.seqno)
    (hbelow : pp.seqno ≤ s.lastStable + cfg.P.maxOut) (habove : Above s → s.lastStable < pp.seqno) :
    Inv cfg id p { s with seqno := n, created := (pp, s.lastStable) :: s.created } := by
  have hmem : ∀ {P : PrePrepareMsg × Int → Prop}, P (pp, s.lastStable) → (∀ c ∈ s.created, P c) →
      ∀ c ∈ (pp, s.lastStable) :: s.created, P c := by
    intro P h1 h2 c hc
    rcases List.mem_cons.1 hc with rfl | hc
    · exact h1
    · exact h2 c hc
  refine ⟨⟨hmem hbelow hs.numbered.below, fun ha => hmem (habove ha) (hs.numbered.above ha), ?_⟩,
    hs.vi, hs.outs, hs.v, hs.viV,
    hs.held, hmem ⟨hv.le, by rw [hv]; exact hp⟩ hs.views,
      hmem (fun _ => ⟨hle, hr⟩) fun c hc he => ?_, fun m hm => ?_,
    fun h0 hno => ?_, fun ha hp hc => ?_⟩
  · refine hmem (P := fun a => ∀ b ∈ (pp, s.lastStable) :: s.created,
      a.1.view = b.1.view → a.1.seqno = b.1.seqno → a.1 = b.1)
      (hmem (fun _ _ => rfl) fun b hb hbv hbn => ?_)
        fun a ha => hmem (fun hav han => ?_) fun b hb => hs.numbered.unique a ha b hb
    · exact absurd hbn.symm (hunused b hb (hbv.symm.trans hv))
    · exact absurd han (hunused a ha (hav.trans hv))
  · exact ⟨(hs.current c hc he).1.trans hn, (hs.current c hc he).2⟩
  · exact ⟨(hs.reserved m hm).1.trans hn, (hs.reserved m hm).2⟩
  · have hno : s.vi.hasNewView cfg s.v = false := hno
    rcases hnew with h | h
    · exact absurd h h0
    · simp [hno] at h
  · exact (hs.window ha hp hc).imp (fun h => h.trans hn) fun h => h

/-- The next sequence number. -/
theorem createPrePrepare_keeps (hl : ∀ n, ¬p.late n) (hs : Inv cfg id p s)
    (hp : cfg.primary s.v = id) (hnew : s.hasNewView cfg = true)
    (hle : s.seqno + 1 ≤ cfg.P.maxOut + s.lastStable) (batch : List UInt8) :
    Ensures (createPrePrepare cfg id batch) s (fun _ t => Inv cfg id p t) (Numbered cfg) := by
  refine Reaches.modify_bind trivial (Reaches.get_bind (Reaches.modify_bind trivial ?_))
  set pp : PrePrepareMsg := ⟨s.v, s.seqno + 1, cfg.batchDigest batch, batch⟩ with hpp
  have hinv : Inv cfg id p { s with seqno := s.seqno + 1,
                                    created := (pp, s.lastStable) :: s.created } := by
    have hnew := hasNewView_cases hnew
    have hseq : pp.seqno = s.seqno + 1 := rfl
    refine created_inv hs hp hnew rfl (by omega) hseq.le
      (fun c hc he heq => ?_) (fun hr => ?_) (by omega) fun ha => ?_
    · have := (hs.current c hc he).1
      omega
    · have := (hs.reserved _ hr).1
      omega
    · have := (hs.window ha hp hnew).resolve_right (hl _)
      omega
  have hrest : Keeps cfg id p (do
      emit none (.prePrepare pp)
      let pc ← fetchP cfg (s.seqno + 1)
      let pc ← ofOption (pc.addMinePrePrepare (cfg.env id) pp)
      setP cfg (s.seqno + 1) pc) := by
    refine .bind (Quiet.keeps (emit_quiet rfl))
      fun _ => .bind (fetchP_quiet cfg _).keeps fun _ => ?_
    exact .ofOption_bind (fun _ hs => hs.numbered) fun _ => setP_keeps _ _
  exact hrest _ hinv

theorem sendPrePrepare_keeps (hl : ∀ n, ¬p.late n) : Keeps cfg id p (sendPrePrepare cfg id) := by
  intro s hs
  refine Reaches.get_bind (Reaches.assert_bind hs.numbered
    fun hp => Reaches.when (fun hg => ?_) fun _ => hs)
  simp only [Bool.and_eq_true, decide_eq_true_eq] at hg
  refine Ensures.bind (Q := fun _ t => Inv cfg id p t ∧
    Aside s t ∧ t.hasNewView cfg = s.hasNewView cfg) ?_ fun batch t ht => ?_
  · refine Reaches.get_bind (Reaches.modify_bind trivial (Reaches.pure ?_))
    have haside : Aside s { s with
        rqueue := (cfg.fill s.rqueue (s.oracle.choices.headD [])).2
        oracle := { s.oracle with choices := s.oracle.choices.tail } } := ⟨rfl,
          rfl, rfl, rfl, rfl, rfl, rfl, rfl⟩
    exact ⟨haside.inv hs, haside, rfl⟩
  · obtain ⟨hinv, haside, hnew⟩ := ht
    have hp : cfg.primary s.v = id := by simpa [isPrimary] using hp
    refine createPrePrepare_keeps hl hinv (by rw [haside.v]; exact hp)
      (by rw [hnew]; exact hg.2) ?_ batch
    rw [haside.seqno, haside.lastStable]
    exact hg.1.2

theorem sendNull_keeps (hl : ∀ n, ¬p.late n) : Keeps cfg id p (sendNull cfg id) := by
  intro s hs
  refine Reaches.get_bind (Reaches.assert_bind hs.numbered
    fun hp => Reaches.when (fun hg => ?_) fun _ => hs)
  simp only [Bool.and_eq_true, decide_eq_true_eq] at hg
  exact createPrePrepare_keeps hl hs (by simpa [isPrimary] using hp) hg.1.1.1.2 hg.2 []

/-! ## Stable checkpoints, and the normal case -/

section Calls

variable (hid : id < cfg.n) (hh : ServesPlaces cfg id h)

include hh in
theorem kept_inv (p : Place) : Kept cfg id h (Inv cfg id p) (Numbered cfg) where
  rest _ hs := hs.numbered
  aside _ _ h := h.inv
  stalePC n := stalePC_keeps n
  onVi hop hsilent _ hs := onVi_keeps hh hs (hop hs.vi (by rw [hs.outs]; rfl)) hsilent

include hid hh

/-- A new stable checkpoint. -/
theorem advance_keeps (n : Int) (haveState : Bool) :
    Keeps cfg id p (advance cfg id h n haveState) := by
  intro s hs
  -- until `seqno` is raised, `last_stable` may be ahead of it
  let p' : Place := { p with late := fun m => m = n }
  have hraised : Inv cfg id p' { s with lastStable := n,
                                        lowBound := if s.lowBound < n then n else s.lowBound } :=
    ⟨hs.numbered.of_eq rfl rfl, hs.vi, hs.outs, hs.v, hs.viV,
      hs.held, hs.views, hs.current, hs.reserved, hs.fresh,
      fun _ _ _ => .inr rfl⟩
  refine Reaches.modify_bind trivial
    (Reaches.get_bind (Ensures.bind (Q := fun _ t => Inv cfg id p' t) ?_ fun _ t ht => ?_))
  · have hk := kept_inv hh p'
    refine Reaches.when (fun _ => ?_) fun _ => hraised
    have hkeep : Keeps cfg id p' (do
        modify fun s => { s with lastExecuted := n, lastTentativeExecute := n,
                                 rqueue := cfg.prune s.state.mem s.rqueue }
        updateMaxRec cfg id h
        modify fun s => { s with lastPrepared := if s.lastPrepared <
                                   s.lastStable then s.lastStable else s.lastPrepared }) := by
      refine hk.modify_bind (fun _ => ⟨rfl, rfl, rfl, rfl, rfl, rfl, rfl, rfl⟩)
        (.bind (hk.updateMaxRec hid) fun _ => ?_)
      exact hk.modify fun _ => ⟨rfl, rfl, rfl, rfl, rfl, rfl, rfl, rfl⟩
    exact hkeep _ hraised
  · have hk := kept_inv hh p
    have hle : t.seqno ≤ if t.seqno < t.lastStable then t.lastStable else t.seqno := by
      split <;> omega
    have hraised := ht.raise hle
    have hinv : Inv cfg id p { t with
        seqno := if t.seqno < t.lastStable then t.lastStable else t.seqno
        plog := t.plog.truncate cfg.P.maxOut PreparedCert.clear (t.lastStable + 1)
        clog := t.clog.truncate cfg.P.maxOut Certificate.clear (t.lastStable + 1) } := by
      refine ⟨ht.numbered.of_eq rfl rfl, ht.vi, ht.outs,
        ht.v, ht.viV, ht.held, ht.views, hraised.current, hraised.reserved, ht.fresh,
        fun _ _ _ => .inl ?_⟩
      change t.lastStable ≤ if t.seqno < t.lastStable then t.lastStable else t.seqno
      split <;> omega
    refine Reaches.modify_bind trivial (Keeps.apply ?_ hinv)
    refine .get_bind fun s => ?_
    refine .bind (hk.onVi (fun hw _ => ViewInfo.markStable_keeps hid hw _) (.markStable cfg id _))
      fun _ => .get_bind fun s => ?_
    refine .ofOption_bind hk.rest fun e =>
      hk.modify_bind (fun _ => ⟨rfl, rfl, rfl, rfl, rfl, rfl, rfl, rfl⟩) ?_
    exact .get_bind fun s => hk.quiet (onState_quiet _)

theorem keptStable_inv (hl : ∀ n, ¬p.late n) : KeptStable cfg id h (Inv cfg id p) (Numbered cfg) :=
  { kept_inv hh p with
    advance := fun n haveState => advance_keeps hid hh n haveState
    sendPrePrepare := sendPrePrepare_keeps hl }

omit hid in
theorem sendPrepare_keeps (n : Int) : Keeps cfg id p (sendPrepare cfg id n) := by
  have hk := kept_inv hh p
  refine .bind (hk.quiet (fetchP_quiet cfg n)) fun pc => ?_
  cases pc.myPrepare with
  | some _ => exact .pure
  | none =>
    cases pc.pp with
    | none => exact .pure
    | some pp =>
      refine .get_bind fun s => .modify_bind (fun _ hs => hs.of_eq rfl rfl rfl rfl rfl rfl) ?_
      exact .ofOption_bind hk.rest fun r => setP_keeps n _

theorem handlePrePrepare_keeps (hl : ∀ n, ¬p.late n) (m : PrePrepareMsg)
    (nrc reqsOk digestOk : Bool) :
    Keeps cfg id p (handlePrePrepare cfg id h m nrc reqsOk digestOk) := by
  have hk := keptStable_inv hid hh hl
  refine .bind (hk.quiet (inWv_quiet cfg _ _ _))
    fun w => .get_bind fun s => .ite (fun _ => ?_) fun _ => .when fun _ => ?_
  · refine .bind (hk.quiet (fetchP_quiet cfg _))
      fun pc => .ofOption_bind hk.rest fun r => .bind (setP_keeps _ _) fun _ => .when fun _ => ?_
    exact .bind (sendPrepare_keeps hh _) fun _ => hk.commitIfComplete hid _
  · exact hk.onVi (fun hw _ => ViewInfo.addMissing_keeps hid hw m digestOk) (.onNv cfg id _ _)

theorem handlePrepare_keeps (hl : ∀ n, ¬p.late n) (m : Prepare) (verify : Bool) :
    Keeps cfg id p (handlePrepare cfg id h m verify) := by
  have hk := keptStable_inv hid hh hl
  refine .bind (hk.quiet (inWv_quiet cfg _ _ _))
    fun w => .get_bind fun s => .ite (fun _ => ?_) fun _ => .when fun _ => ?_
  · refine .bind (hk.quiet (fetchP_quiet cfg _))
      fun pc => .ofOption_bind hk.rest fun r => .bind (setP_keeps _ _) fun _ => .when fun _ => ?_
    exact hk.commitIfComplete hid _
  · exact hk.onVi (fun hw _ => ViewInfo.addMissingPrepare_keeps hid hw m) (.onNv cfg id _ _)

end Calls

/-! ## A new view -/

/-- The place in the loop of `process_new_view`, where the sequence numbers `is` are still to
come. -/
def Place.remaining (cfg : Cfg) (id : Nat) (p : Place) (is : List Int) : Place :=
  { p with late := fun _ => False, reserved := fun n => cfg.primary p.v = id ∧ n ∈ is }

section NewView

variable (hid : id < cfg.n) (hh : ServesPlaces cfg id h)

include hid hh

/-- One pre-prepare of the new view. -/
theorem newViewRequest_ensures {i : Int} {is : List Int}
    (hs : Inv cfg id (p.remaining cfg id (i :: is)) s) (hi : i ∉ is)
    (hw : cfg.primary p.v = id → s.lastStable < i ∧ i ≤ s.lastStable + cfg.P.maxOut) :
    Ensures (newViewRequest cfg id h i) s (fun _ t => Inv cfg id (p.remaining cfg id is) t ∧
      (cfg.primary p.v = id → t.lastStable = s.lastStable)) (Numbered cfg) := by
  have hmem : cfg.primary p.v = id → (p.remaining cfg id (i :: is)).reserved i :=
    fun hp => ⟨hp, List.mem_cons_self⟩
  refine Reaches.get_bind (Ensures.bind
    (onVi_inv (A := True) (fun _ => p.held) hh hs (ViewInfo.fetchRequest_keeps hid hs.vi i)
    (.onNv cfg id _ _) fun hk v hv => (hk.held trivial v (hs.viV ▸ hv)).trans (hs.held v hv)) ?_)
  rintro ⟨pp, d⟩ t ⟨ht, hres, hls⟩
  have hpp : cfg.primary p.v = id → pp.view = p.v ∧ pp.seqno = i := by
    intro hp
    have hv : s.vi.v = p.v := hs.viV.trans hs.v
    have hnew := (hs.reserved i (hmem hp)).2.2
    have := (ViewInfo.fetchRequest_result hs.vi (by rw [hv]; exact hp)
      (by rw [hs.viV]; exact hnew) i).result.1 _ hres
    exact ⟨this.1.trans hv, this.2⟩
  have hls : cfg.primary p.v = id → t.lastStable = s.lastStable := fun hp => hls ⟨i, hmem hp⟩
  refine Ensures.bind ((fetchP_quiet cfg i t).imp (fun _ _ hu => hu)
    fun u hu => hu.numbered ht.numbered) fun pc u hu => ?_
  have hinv := hu.inv ht
  have hweak : Inv cfg id (p.remaining cfg id is) u :=
    hinv.weaken rfl (fun _ h => h) (fun n hn => ⟨hn.1, List.mem_cons_of_mem _ hn.2⟩) le_rfl
  have huls : cfg.primary p.v = id → u.lastStable = s.lastStable :=
    fun hp => hu.lastStable.trans (hls hp)
  refine Reaches.get_bind (Reaches.ite (fun hp => Reaches.modify_bind trivial ?_) fun _ => ?_)
  · have hp : cfg.primary u.v = id := by simpa [isPrimary] using hp
    have hv : u.v = p.v := hinv.v
    have hpv : cfg.primary p.v = id := hv ▸ hp
    obtain ⟨hview, hseq⟩ := hpp hpv
    obtain ⟨hle, -, hnew⟩ := hinv.reserved i (hmem hpv)
    have hw := hw hpv
    have hu' := huls hpv
    have hcreated :
      Inv cfg id (p.remaining cfg id is) { u with created := (pp, u.lastStable) :: u.created } := by
      refine created_inv (n := u.seqno) hweak hp (.inr hnew)
        (hview.trans hinv.v.symm) le_rfl (by omega) (fun c hc he heq => ?_)
        (fun hr => ?_) (by omega) fun _ => by omega
      · refine (hinv.current c hc he).2 ?_
        rw [heq, hseq]
        exact hmem hpv
      · rw [hseq] at hr
        exact hi hr.2
    refine Reaches.ofOption_bind hcreated.numbered fun pc' _ => Reaches.modify trivial ⟨?_, huls⟩
    exact hcreated.of_eq rfl rfl rfl rfl rfl rfl
  · refine Reaches.ofOption_bind hweak.numbered fun r _ => Reaches.modify_bind trivial ?_
    refine Reaches.assert_bind (hweak.numbered.of_eq rfl rfl)
      fun _ => Reaches.ofOption_bind (hweak.numbered.of_eq rfl rfl) fun pc' _ => ?_
    exact Reaches.modify trivial ⟨hweak.of_eq rfl rfl rfl rfl rfl rfl, huls⟩

/-- The loop of `process_new_view`. -/
theorem newViewRequests_ensures {lo max : Int}
    (hs : Inv cfg id (p.remaining cfg id (intRange lo max)) s)
    (hw : cfg.primary p.v = id → s.lastStable < lo ∧ max - s.lastStable - 1 ≤ cfg.P.maxOut) :
    Ensures (each (newViewRequest cfg id h) (intRange lo max))
      s (fun _ t => Inv cfg id (p.remaining cfg id []) t) (Numbered cfg) := by
  obtain ⟨k, hk⟩ : ∃ k, k = (max - lo).toNat := ⟨_, rfl⟩
  induction k generalizing s lo with
  | zero =>
    rw [intRange_nil (by omega)] at hs ⊢
    exact Reaches.pure hs
  | succ k ih =>
    have hlt : lo < max := by omega
    rw [intRange_cons hlt] at hs ⊢
    refine Ensures.bind (newViewRequest_ensures hid hh hs (fun hmem => ?_) fun hp => ?_)
      fun _ t ht => ?_
    · have := (mem_intRange.1 hmem).1
      omega
    · have := hw hp
      omega
    · refine ih ht.1 (fun hp => ?_) (by omega)
      have := hw hp
      rw [ht.2 hp]
      omega

/-- **`process_new_view`**: nothing was created in the view before. -/
theorem processNewView_ensures (hs : Pending cfg id p s) (min max ms : Int) :
    Ensures (processNewView cfg id h min max ms) s (fun _ t => Inv cfg id p t) (Numbered cfg) := by
  refine Reaches.assert_bind hs.numbered fun _ => Reaches.get_bind ?_
  -- the call is noted, and the new-view message sent
  refine Ensures.bind (Q := fun _ t => Pending cfg id p t ∧ t.lastStable = s.lastStable ∧
    (cfg.primary t.v = id → (t.lastStable, max) ∈ t.newViews)) ?_ fun _ t ht => ?_
  · refine Reaches.when (fun _ => Reaches.modify_bind trivial ?_) fun hp => ⟨hs, rfl, fun he => ?_⟩
    · have hpend : Pending cfg id p { s with newViews := (s.lastStable, max) :: s.newViews } := by
        refine ⟨⟨hs.numbered.below, fun ha => ?_, hs.numbered.unique⟩,
          hs.vi, hs.outs, hs.v, hs.viV, hs.held, hs.views, hs.reserved,
          hs.complete, hs.fresh⟩
        exact hs.numbered.above fun c hc => ha c (List.mem_cons_of_mem _ hc)
      refine Reaches.ofOption_bind hpend.numbered fun nv _ => ?_
      have hquiet : Quiet (emit none (.newView nv)) := emit_quiet rfl
      refine (hquiet.ensures _).imp (fun _ u hu => ⟨hu.pending hpend, hu.lastStable, fun _ => ?_⟩)
        fun u hu =>
        hu.numbered hpend.numbered
      rw [hu.lastStable, hu.newViews]
      exact List.mem_cons_self
    · simp [isPrimary, he] at hp
  obtain ⟨hpend, hls, hnote⟩ := ht
  set lo := if min < s.lastStable then s.lastStable else min with hlo
  -- all sequence numbers below `max` are reserved
  let p' : Place :=
    { p with late := fun _ => False, reserved := fun n => cfg.primary p.v = id ∧ n < max }
  have hstart : Inv cfg id p' { t with limbo := false, seqno := max - 1, lowBound := lo } := by
    refine ⟨hpend.numbered.of_eq rfl rfl, hpend.vi, hpend.outs,
      hpend.v, hpend.viV, hpend.held, hpend.views,
      fun c hc he => absurd he (hpend.fresh c hc),
        fun n hn => ⟨?_, ?_, hpend.complete⟩, fun _ hno => ?_, fun ha hp _ => .inl ?_⟩
    · have hn : n < max := hn.2
      change n ≤ max - 1
      omega
    · have hv : t.v = p.v := hpend.v
      change cfg.primary t.v = id
      rw [hv]
      exact hn.1
    · have hno : t.vi.hasNewView cfg t.v = false := hno
      simp [hpend.complete] at hno
    · have hlt : t.lastStable < max := ha _ (hnote hp)
      change t.lastStable ≤ max - 1
      omega
  refine Reaches.modify_bind trivial ?_
  refine Ensures.bind (Q := fun _ u => Inv cfg id p' u) (Reaches.when (fun _ => ?_) fun _ => hstart)
    fun _ u hu => ?_
  · exact (keptStable_inv hid hh fun _ h => h).markStable _ _ _ _ hstart
  refine Reaches.get_bind (Reaches.assert_bind hu.numbered fun hwin => ?_)
  obtain ⟨hwin1, hwin2⟩ : u.lastStable ≤ lo ∧ max - u.lastStable - 1 ≤ cfg.P.maxOut := by
    simpa using hwin
  have hrem : Inv cfg id (p.remaining cfg id (intRange (lo + 1) max)) u :=
    hu.weaken rfl (fun _ h => h) (fun n hn => ⟨hn.1, (mem_intRange.1 hn.2).2⟩) le_rfl
  refine Ensures.bind (newViewRequests_ensures hid hh hrem fun _ => by omega) fun _ w hw => ?_
  have hkeep : Keeps cfg id (p.remaining cfg id []) (do
      let s ← get
      when (s.isPrimary cfg id) (sendPrePrepare cfg id)
      let s ← get
      if s.lastExecuted < lo then do
        modify fun s => { s with hasNvState := false }
        onState fun st => st.startFetch cfg s.lastExecuted
      else modify fun s => { s with hasNvState := true }) := by
    have hk := kept_inv hh (p.remaining cfg id [])
    refine .get_bind fun s => .bind (.when fun _ => sendPrePrepare_keeps fun _ h => h)
      fun _ => .get_bind fun s => .ite (fun _ => ?_) fun _ => ?_
    · exact hk.modify_bind (fun _ => ⟨rfl, rfl, rfl, rfl, rfl, rfl, rfl, rfl⟩)
        (hk.quiet (onState_quiet _))
    · exact hk.modify fun _ => ⟨rfl, rfl, rfl, rfl, rfl, rfl, rfl, rfl⟩
  refine (hkeep w hw).imp (fun _ x hx =>
    hx.weaken rfl (fun _ h => h.elim) (fun n hn => absurd hn (hs.reserved n)) le_rfl) fun _ h => h

end NewView

/-- The calls of the `NV_info`s, however deep. -/
theorem handleCall_serves (hid : id < cfg.n) :
    ∀ depth, ServesPlaces cfg id (handleCall cfg id depth)
  | 0 => fun _ => ⟨.stop, fun _ _ _ _ _ hs => Reaches.stop hs.numbered⟩
  | depth + 1 =>
    fun _ => ⟨sendStatus_quiet cfg, fun _ _ _ _ _ hs =>
      processNewView_ensures hid (handleCall_serves hid depth) hs _ _ _⟩

theorem calls_serves (hid : id < cfg.n) : ServesPlaces cfg id (calls cfg id) :=
  handleCall_serves hid 3

/-! ## Entering a view -/

/-- The replica is on its way into view `nv`. -/
structure Leaving (cfg : Cfg) (id : Nat) (nv : Int) (s : Replica) : Prop where
  numbered : Numbered cfg s
  vi : ViewInfo.Ok cfg id s.vi
  outs : s.vi.outs = []
  v : s.v = nv
  viV : s.vi.v < nv
  held : ∀ w, nv < w → s.vi.held cfg w ≤ cfg.f
  views : ∀ c ∈ s.created, c.1.view ≤ s.vi.v ∧ cfg.primary c.1.view = id

theorem Aside.leaving {v : Int} (h : Aside s t) (hs : Leaving cfg id v s) : Leaving cfg id v t := by
  refine ⟨h.numbered hs.numbered, ?_, ?_, ?_, ?_, ?_, ?_⟩ <;> simp only [h.v, h.vi, h.created]
  exacts [hs.vi, hs.outs, hs.v, hs.viV, hs.held, hs.views]

theorem Quiet.keeps_leaving {v : Int} {x : Prog Replica α} (hx : Quiet x)
    (hs : Leaving cfg id v s) :
    Ensures x s (fun _ t => Leaving cfg id v t) (Numbered cfg) :=
  (hx.ensures _).imp (fun _ _ ht => ht.leaving hs) fun _ ht => ht.numbered hs.numbered

theorem collect_ensures {v : Int} (hs : Leaving cfg id v s) (i : Int) :
    Ensures (collect cfg h i) s (fun _ t => Leaving cfg id v t) (Numbered cfg) := by
  refine Ensures.bind ((fetchP_quiet cfg i).keeps_leaving hs)
    fun pc t ht => Ensures.bind ((fetchC_quiet cfg i).keeps_leaving ht) fun cc u hu => ?_
  refine Reaches.ofOption_bind hu.numbered fun complete _ => ?_
  refine Ensures.bind
    (onVi_noteCert hu.vi hu.outs (fun _ => hu.numbered.of_eq rfl rfl) i pc complete) ?_
  rintro _ _ ⟨w, rfl, hk⟩
  have hv : w.v = u.vi.v := hk.v
  refine Reaches.modify_bind trivial ((setC_quiet cfg i _).keeps_leaving
    ⟨hu.numbered.of_eq rfl rfl, hk.ok.served, rfl, hu.v, hv ▸ hu.viV, fun x hx => ?_, ?_⟩)
  · exact (hk.held trivial x (hu.viV.trans hx)).trans (hu.held x hx)
  · change ∀ c ∈ u.created, c.1.view ≤ w.v ∧ cfg.primary c.1.view = id
    rw [hv]
    exact hu.views

/-- **`send_view_change`**: in the new view nothing was created. -/
theorem sendViewChange_ensures (hid : id < cfg.n) (hh : ServesPlaces cfg id h) {v : Int}
    (hnum : Numbered cfg s) (hvi : ViewInfo.Ok cfg id s.vi) (houts : s.vi.outs = [])
    (hv : s.v + 1 = v) (hlt : s.vi.v < v) (hheld : ∀ w, v < w → s.vi.held cfg w ≤ cfg.f)
    (hviews : ∀ c ∈ s.created, c.1.view ≤ s.vi.v ∧ cfg.primary c.1.view = id) :
    Ensures (sendViewChange cfg id h) s (fun _ t => Inv cfg id (.boundary cfg v) t)
      (Numbered cfg) := by
  have hstart : Leaving cfg id v { s with v := s.v + 1, limbo := true } :=
    ⟨hnum.of_eq rfl rfl, hvi, houts, hv, hlt, hheld, hviews⟩
  refine Reaches.modify_bind trivial (Ensures.bind ((rollback_quiet cfg).keeps_leaving hstart)
    fun _ t ht => ?_)
  have ht' : Leaving cfg id v { t with lastPrepared := t.lastExecuted } :=
    Aside.leaving (s := t) ⟨rfl, rfl, rfl, rfl, rfl, rfl, rfl, rfl⟩ ht
  refine Reaches.modify_bind trivial (Reaches.get_bind ?_)
  refine Ensures.bind (Q := fun _ u => Leaving cfg id v u) ?_ fun _ u hu => Reaches.get_bind ?_
  · exact Reaches.each (I := fun _ u => Leaving cfg id v u)
      (fun i _ u hu => collect_ensures hu i) _ _ ht'
  have hviews : ∀ c ∈ u.created, c.1.view ≤ u.v ∧ cfg.primary c.1.view = id := fun c hc =>
    ⟨((hu.views c hc).1.trans hu.viV.le).trans hu.v.ge, (hu.views c hc).2⟩
  have hfresh : ∀ c ∈ u.created, c.1.view ≠ u.v := fun c hc he => by
    have := (hu.views c hc).1
    have := hu.viV
    have := hu.v
    omega
  have hheld : ∀ {x w : ViewInfo}, ViewInfo.Entered cfg u.v u.vi x →
    ViewInfo.Kept cfg id True True x w → ∀ y, u.v < y → w.held cfg y ≤ cfg.f :=
    fun hx hk y hy =>
      (hk.held trivial y (hx.v ▸ hy)).trans ((hx.held y hy).trans (hu.held y (hu.v ▸ hy)))
  refine enterView_ensures (D := Pending cfg id (.boundary cfg v))
    Pending.bears (hh _) hid hu.vi hu.outs (hu.v ▸ hu.viV)
    (fun _ => hu.numbered.of_eq rfl rfl) (fun x w hx hk h0 => ?_) (fun x w hx hk h1 => ?_) _ _ _ _
  · have hwv : w.v = u.v := hk.v.trans hx.v
    have hno : ¬w.hasNewView cfg u.v = true := fun hc => by
      rcases hk.called trivial (hwv ▸ hc) with h | h
      · rw [hx.v, hx.none] at h
        cases h
      · omega
    refine ⟨hu.numbered.of_eq rfl rfl, hk.ok.served, rfl,
      hu.v, hwv, fun y hy => hheld hx hk y hy, hviews,
      fun c hc he => absurd he (hfresh c hc), fun n hn =>
        hn.elim, fun _ _ => hfresh, fun _ _ hc => ?_⟩
    have hpos := hu.vi.inv.nonneg
    have hlt := hu.viV
    have huv := hu.v
    rcases hc with hc | hc
    · have hc : u.v = 0 := hc
      omega
    · exact absurd hc hno
  · have hwv : w.v = u.v := hk.v.trans hx.v
    exact ⟨hu.numbered.of_eq rfl rfl, hk.ok.served, rfl, hu.v, hwv,
      fun y hy => hheld hx hk y hy, hviews, fun n hn => hn.elim, hwv ▸ hk.ok.complete h1, hfresh⟩

section Events

variable (hid : id < cfg.n)

include hid

/-- The replica is between two events. -/
def AtBoundary (cfg : Cfg) (id : Nat) (s : Replica) : Prop := ∃ v, Inv cfg id (.boundary cfg v) s

theorem Inv.sendViewChange {v : Int} (hs : Inv cfg id (.boundary cfg v) s) :
    Ensures (sendViewChange cfg id (calls cfg id)) s (fun _ t => AtBoundary cfg id t)
      (Numbered cfg) := by
  have hviV := hs.viV
  refine (sendViewChange_ensures hid (calls_serves hid)
    hs.numbered hs.vi hs.outs rfl (by omega) (fun w hw => hs.held w (by omega))
    fun c hc => ?_).imp (fun _ t ht => ⟨_, ht⟩) fun _ h => h
  rw [hviV]
  exact hs.views c hc

/-- Joining the view of `f + 1` replicas. -/
theorem joinView_ensures (hs : Inv cfg id p s) (hlt : s.v < s.vi.maxView cfg) :
    Ensures (joinView cfg id (s.vi.maxView cfg)) s (fun _ t => AtBoundary cfg id t)
      (Numbered cfg) := by
  have hviV := hs.viV
  refine Reaches.modify_bind trivial
    ((sendViewChange_ensures hid (calls_serves hid) (s := { s with v := s.vi.maxView cfg - 1 })
    (v := s.vi.maxView cfg) (hs.numbered.of_eq rfl rfl) hs.vi hs.outs ?_ ?_ ?_ ?_).imp
      (fun _ t ht => ⟨_, ht⟩) fun _ h => h)
  · change s.vi.maxView cfg - 1 + 1 = s.vi.maxView cfg
    omega
  · exact hviV ▸ hlt
  · intro w hw
    refine ViewInfo.held_le_of_maxView hs.vi.inv ?_ hw
    have hlt : s.vi.v < s.vi.maxView cfg := hviV ▸ hlt
    omega
  · intro c hc
    change c.1.view ≤ s.vi.v ∧ _
    rw [hviV]
    exact hs.views c hc

theorem handleViewChange_ensures (hs : AtBoundary cfg id s) {m : ViewChange} {verified : Bool}
    (digestOk : Bool) (hver : verified = true → m.id ≠ id ∧ 0 < m.v) :
    Ensures (handleViewChange cfg id m verified digestOk)
      s (fun _ t => AtBoundary cfg id t) (Numbered cfg) := by
  obtain ⟨v, hs⟩ := hs
  refine Reaches.get_bind
    (Ensures.bind (Reaches.when (fun _ => hs.sendViewChange hid) fun _ => ⟨v, hs⟩) ?_)
  rintro _ t ⟨v, ht⟩
  -- one more view-change may be kept, until the replica joins its view
  have hnone : ∀ b, (ViewInfo.addViewChange cfg id m verified digestOk t.vi).1 = some b →
    b = false → _ :=
    (ViewInfo.addViewChange_false m verified digestOk).result.1
  have hcalm : ∀ w, t.vi.v < w → t.vi.held cfg w ≤ cfg.f := fun w hw => ht.held w (ht.viV ▸ hw)
  refine Ensures.bind (onVi_inv (A := False) (fun o => if o = some false then cfg.f else cfg.f + 1)
    (calls_serves hid) ht (ViewInfo.addViewChange_keeps
      (fun h => h) hid ht.vi hcalm (by rw [ht.outs]; rfl) digestOk hver)
    (.addViewChange cfg id m verified digestOk) ?_) ?_
  · intro hk w hw
    have hw : t.vi.v < w := ht.viV ▸ hw
    split
    · rename_i ho
      exact (hnone false ho rfl w).trans (hcalm w hw)
    · exact hk.ok.inv.few w (hk.v ▸ hw)
  rintro modified u ⟨hu, -, -⟩
  refine Reaches.when (fun hmod => Reaches.get_bind ?_) fun hmod => ⟨v, ?_⟩
  · refine Reaches.ite (fun hlt => joinView_ensures hid hu hlt) fun hle => ?_
    have hbound : Inv cfg id (.boundary cfg v) u := by
      refine ⟨hu.numbered, hu.vi, hu.outs, hu.v,
        hu.viV, fun w hw => ?_, hu.views, hu.current, hu.reserved, hu.fresh, hu.window⟩
      exact ViewInfo.held_le_of_maxView hu.vi.inv (hu.viV ▸ hw) (by omega)
    refine Reaches.when (fun _ => Reaches.assert_bind hu.numbered
      fun _ => Reaches.when (fun _ => ?_) fun _ => ⟨v, hbound⟩)
      fun _ => ⟨v, hbound⟩
    exact Reaches.modify trivial ⟨v, hbound.of_eq rfl rfl rfl rfl rfl rfl⟩
  · rw [hmod] at hu
    exact hu

theorem handleNewView_ensures (hs : AtBoundary cfg id s) {m : NewView} {verified : Bool}
    (hver : verified = true → m.id cfg ≠ id ∧ 0 < m.v) :
    Ensures (handleNewView cfg id m verified) s (fun _ t => AtBoundary cfg id t)
      (Numbered cfg) := by
  obtain ⟨v, hs⟩ := hs
  refine (onVi_keeps (calls_serves hid) hs ?_ (.addNewView cfg id m verified)).imp
    (fun _ t ht => ⟨v, ht⟩) fun _ h => h
  refine ViewInfo.addNewView_keeps hid hs.vi (by rw [hs.outs]; rfl) hver fun hp hv he => ?_
  rw [hs.viV, hp] at he
  exact absurd he (hver hv).1

theorem handle_ensures (hs : AtBoundary cfg id s) (e : Event) :
    Ensures (handle cfg id e) s (fun _ t => AtBoundary cfg id t) (Numbered cfg) := by
  have hh := calls_serves hid
  have hl : ∀ v n, ¬(Place.boundary cfg v).late n := fun _ _ h => h
  have hk := fun v => keptStable_inv hid hh (hl v)
  have hkeep : ∀ {x : Prog Replica Unit}, (∀ v, Keeps cfg id (.boundary cfg v) x) →
      Ensures x s (fun _ t => AtBoundary cfg id t) (Numbered cfg) := by
    intro x hx
    obtain ⟨v, hs⟩ := hs
    exact ((hx v).apply hs).imp (fun _ t ht => ⟨v, ht⟩) fun _ h => h
  cases e with
  | prePrepare m nrc reqsOk digestOk =>
    exact hkeep fun v => handlePrePrepare_keeps hid hh (hl v) m _ reqsOk digestOk
  | prepare m verify => exact hkeep fun v => handlePrepare_keeps hid hh (hl v) m _
  | commit m verify => exact hkeep fun v => (hk v).handleCommit hid m _
  | checkpoint m verify old => exact hkeep fun v => (hk v).handleCheckpoint m _ old
  | status m verify => exact hkeep fun v => (hk v).handleStatus m verify
  | viewChange m verified digestOk =>
    refine handleViewChange_ensures hid hs digestOk fun hver => ?_
    simp only [ViewChange.wellFormed, Bool.and_eq_true, decide_eq_true_eq, bne_iff_ne] at hver
    exact ⟨hver.2, hver.1.2.1.2.2.1⟩
  | newView m verified =>
    refine handleNewView_ensures hid hs fun hver => ?_
    simp only [NewView.wellFormed, Bool.and_eq_true, decide_eq_true_eq, bne_iff_ne] at hver
    exact ⟨hver.2, hver.1.2.1.1⟩
  | ack m verified => exact hkeep fun v => (hk v).handleAck hid m _
  | request r => exact hkeep fun v => (hk v).handleRequest r
  | fetched c mem lm =>
    exact hkeep fun v => (hk v).handleFetched hid (fun _ _ hn hs => hs.raise hn) c mem lm
  | viewTimer =>
    obtain ⟨v, hs⟩ := hs
    exact Reaches.get_bind (Reaches.when (fun _ => hs.sendViewChange hid) fun _ => ⟨v, hs⟩)
  | statusTimer => exact hkeep fun v => (hk v).quiet (sendStatus_quiet cfg)
  | nullTimer => exact hkeep fun v => .get_bind fun s => .when fun _ => sendNull_keeps (hl v)
  | newKey => exact hkeep fun v => (hk v).sendNewKey hid

end Events

/-! ## Runs -/

theorem inv_new (mem : Mem) : Inv cfg id (.boundary cfg 0) (new cfg id mem) where
  numbered := ⟨by simp [new], by simp [new], by simp [new]⟩
  vi := ViewInfo.ok_new
  outs := rfl
  v := rfl
  viV := rfl
  held w _ := (ViewInfo.held_new w).le.trans (Nat.zero_le _)
  views := by simp [new]
  current := by simp [new]
  reserved _ h := h.elim
  fresh h := absurd rfl h
  window _ _ _ := .inl le_rfl

/-- Between the events of a run. -/
structure RunInv (cfg : Cfg) (id : Nat) (s : Replica) : Prop where
  numbered : Numbered cfg s
  running : s.halted = false → AtBoundary cfg id s

theorem step_inv (hid : id < cfg.n) (hs : RunInv cfg id s) (e : Oracle × Event) :
    RunInv cfg id (step cfg id s e) := by
  unfold step
  by_cases hh : s.halted = true
  · rw [if_pos hh]
    exact hs
  rw [if_neg hh]
  obtain ⟨v, hb⟩ := hs.running (by simpa using hh)
  have hb' : Inv cfg id (.boundary cfg v) { s with oracle := e.1 } :=
    hb.of_eq rfl rfl rfl rfl rfl rfl
  obtain ⟨h1, h2⟩ := (handle_ensures hid ⟨v, hb'⟩ e.2).result
  cases hr : handle cfg id e.2 { s with oracle := e.1 } with
  | mk o t =>
    rw [hr] at h1 h2
    cases o with
    | some a =>
      obtain ⟨w, hw⟩ := h1 a rfl
      exact ⟨hw.numbered, fun _ => ⟨w, hw⟩⟩
    | none => exact ⟨(h2 rfl).of_eq rfl rfl, fun h => by cases h⟩

theorem run_inv (hid : id < cfg.n) (es : List (Oracle × Event)) (hs : RunInv cfg id s) :
    RunInv cfg id (run cfg id s es) := by
  induction es generalizing s with
  | nil => exact hs
  | cons e es ih => exact ih (step_inv hid hs e)

/-- **The numbers of the pre-prepares that a primary creates.** Never above the window and never
used twice; and above the stable checkpoint, as long as the new views that the primary processes
begin above it. -/
theorem run_numbered (hid : id < cfg.n) (mem : Mem) (es : List (Oracle × Event)) :
    let t := run cfg id (new cfg id mem) es
    (∀ c ∈ t.created, c.1.seqno ≤ c.2 + cfg.P.maxOut) ∧
    ((∀ c ∈ t.newViews, c.1 < c.2) → ∀ c ∈ t.created, c.2 < c.1.seqno) ∧
    ∀ a ∈ t.created, ∀ b ∈ t.created, a.1.view = b.1.view → a.1.seqno = b.1.seqno → a.1 = b.1 := by
  have h := (run_inv hid es (s := new cfg id mem) ⟨(inv_new mem).numbered,
    fun _ => ⟨0, inv_new mem⟩⟩).numbered
  exact ⟨h.below, h.above, h.unique⟩

/-- The view-change of replica `i` for view 1: checkpoint 0, and no requests. -/
def emptyViewChange (i : Nat) : ViewChange := ⟨1, 0, i, [7, 0, 0], 1, 0, [0], []⟩

def ackEmpty (i j : Nat) : Event := .ack ⟨1, i, j, fourReplicas.vcDigest (emptyViewChange j)⟩ true

/-- With a request in its queue, the replica enters view 1 and gets the view-changes of three
others. -/
def enterViewOne : List Event :=
  [.request [1], .viewTimer,
    .viewChange (emptyViewChange 0) true true, .viewChange (emptyViewChange 2) true true,
      .viewChange (emptyViewChange 3) true true,
    ackEmpty 2 0, ackEmpty 3 2, ackEmpty 0 3]

/-- Two others have a stable checkpoint 6, and it is fetched. -/
def fetchSix : List Event :=
  [.checkpoint ⟨6, 7, 2, true⟩ true false, .checkpoint ⟨6, 7, 3, true⟩ true false,
    .fetched 6 (fun _ => []) fun _ => 0]

/-- The run of replica 1, the primary of view 1. -/
def runOne (es : List Event) : Replica :=
  run fourReplicas 1 (new fourReplicas 1 fun _ => []) (es.map
    fun e => ({ Oracle.none with ckptAuth := fun _ => true }, e))

/-- In view 1 it gives the request sequence number 1. -/
theorem run_numbered_viewOne :
    (runOne enterViewOne).created.map (fun c => (c.1.view, c.1.seqno, c.2)) = [(1, 1, 0)] ∧
      ∀ c ∈ (runOne enterViewOne).created, c.2 < c.1.seqno ∧ c.1.seqno ≤ c.2 + 4 := by
  have h := @run_numbered fourReplicas 1 (by decide) (fun _ => [])
    (enterViewOne.map fun e => ({ Oracle.none with ckptAuth := fun _ => true }, e))
  exact ⟨by decide +kernel, fun c hc => ⟨h.2.1 (by decide +kernel) c hc, h.1 c hc⟩⟩

/-- After the fetch its stable checkpoint is 2, the view-changes still begin at 0, and it gives the
request sequence number 1. -/
theorem created_below_stable :
    (runOne (fetchSix ++ enterViewOne)).created.map (fun c =>
        (c.1.view, c.1.seqno, c.2)) = [(1, 1, 2)] ∧
      ¬∀ c ∈ (runOne (fetchSix ++ enterViewOne)).created,
        c.2 < c.1.seqno ∧ c.1.seqno ≤ c.2 + 4 := by
  decide +kernel

end Replica

end TinyBFT
