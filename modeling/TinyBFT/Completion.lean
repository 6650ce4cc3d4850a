import TinyBFT.RequestCompletion

/-!
# When a new view is complete

That all requests are complete is tested at the end of `check_comp` and of `choose_ckpt`, and most
of the callers go on without a look at `is_complete`:

* `summarize` goes through the rest of its candidates (`NV_info.cc:265-296`), and each one that has
  enough proofs is given to `choose_ckpt` again, which makes the message a second time;
* `summarize_reqs` returns after `check_comp` for an entry that was there before, but not for one
  that it adds (`NV_info.cc:525-540`), and goes on with the next sequence number;
* `check_new_view` leaves `chosen_ckpt` set when it then rejects `max` (`NV_info.cc:603-618`).

`NVStep.fits` says of the view-changes and the state before the operation that none of this happens.
The adjustment of `n_complete` for a smaller `max`, which `choose_ckpt` lacks, is never needed: a
candidate with a larger sequence number has no smaller `max_seqno`.

| here | there |
| --- | --- |
| `Candidate`  | an entry of `ckpts`, or the one that `summarize` adds, once a view-change is counted |
| `isOver`     | whether the new view is complete, once some candidates are chosen |
| `Counted`    | an `NV_info`, and its calls of `process_new_view` for the view so far |
-/

namespace TinyBFT

namespace NVInfo

open Prog (Ensures Reaches Within Composes Holds get modify assert ofOption when each eachUntil)

/-- A checkpoint is chosen, and the requests between `min` and `max` are complete. -/
def Settled (s : NVInfo) : Prop :=
  s.chosenCkpt.isSome = true ∧ ∀ i, s.min < i → i < s.max → s.done i = true

/-! ## Where the code goes on after the end -/

/-- A candidate for the checkpoint, once the view-change is counted. -/
structure Candidate where
  n : Int
  /-- Its `max_seqno`. -/
  top : Int
  /-- It has `f + 1` proofs, and `2f + 1` view-changes are not beyond it. -/
  supported : Bool
  /-- The view-changes that are asked for it have room for its sequence number. -/
  readable : Bool

/-- `max_seqno` of a candidate once `vc` is counted. -/
def raised (vc : ViewChange) (vclc : Digest) (c : CkptSum) : Int :=
  if (c.n = vc.ls ∧ c.d = vclc) ∨ vc.ls < c.n then
    if c.maxSeqno < vc.maxSeqno then vc.maxSeqno else c.maxSeqno else c.maxSeqno

/-- The candidate is the last stable checkpoint of `vc`. -/
def isOwn (vc : ViewChange) (vclc : Digest) (c : CkptSum) : Bool := c.n == vc.ls && c.d == vclc

/-- `min` and `max` once `c` is chosen; `w` are those of before, if one was chosen. -/
def narrow (w : Option (Int × Int)) (c : Candidate) : Option (Int × Int) :=
  match w with
  | some (lo, hi) => some (if lo < c.n then c.n else lo, hi)
  | none => some (c.n, c.top + 1)

/-- `min` and `max` once the candidates `R` are chosen, one after the other. -/
def window (s : NVInfo) (R : List Candidate) : Option (Int × Int) :=
  R.foldl narrow (if s.chosenCkpt.isSome then some (s.min, s.max) else none)

section Fits

variable (V : NVEnv)

/-- A candidate that was there before. -/
def Candidate.ofCkpt (vc : ViewChange) (vclc : Digest) (c : CkptSum) : Candidate where
  n := c.n
  top := raised vc vclc c
  supported :=
    decide (V.cfg.f + 1 ≤
        c.nProofs + if isOwn vc vclc c || hasCkpt V.cfg.P c.n c.d vc then 1 else 0) &&
      decide (V.cfg.nf ≤ c.nLe + if isOwn vc vclc c || decide (vc.ls < c.n) then 1 else 0)
  readable := isOwn vc vclc c || (vc.ckpt V.cfg.P c.n).isSome

/-- The candidate that `vc` brings. -/
def Candidate.ofVC (vc : ViewChange) (vclc : Digest) (s : NVInfo) : Candidate where
  n := vc.ls
  top := (s.ckpts.filter fun c => c.n < vc.ls).foldl
    (fun m c => if m < c.maxSeqno then c.maxSeqno else m) vc.maxSeqno
  supported :=
    decide (V.cfg.f + 1 ≤
        (includedVCs V.cfg s V.cfg.n).countP (hasCkpt V.cfg.P vc.ls vclc)) &&
      decide (V.cfg.nf ≤ (s.ckpts.filter fun c => c.n < vc.ls).length + 1)
  readable := (List.range V.cfg.n).all fun j =>
    !s.inNewView V.cfg j || (s.vcOf j).any fun m => (m.ckpt V.cfg.P vc.ls).isSome

/-- The candidates of `summarize`, in order. -/
def candidates (vc : ViewChange) (vclc : Digest) (s : NVInfo) : List Candidate :=
  s.ckpts.map (Candidate.ofCkpt V vc vclc) ++
    if s.ckpts.any (isOwn vc vclc) || vclc.isZero then [] else [Candidate.ofVC V vc vclc s]

/-- The request of `i` is complete, or where none is chosen yet, the view-changes in the message
complete it. -/
def settledIn (s : NVInfo) (i : Int) : Bool :=
  if s.chosenCkpt.isSome then s.done i else settles V i (includedVCs V.cfg s V.cfg.n)

/-- All requests are complete once the candidates `R` are chosen. -/
def isOver (s : NVInfo) (R : List Candidate) : Bool :=
  (window s R).any fun w => (intRange (w.1 + 1) w.2).all (settledIn V s)

/-- The candidate `c` after the supported ones `R`: it is not chosen, and can be read, if all
requests are complete then, and if it is the first one, the requests arrive in time. -/
def candidateFits (s : NVInfo) (R : List Candidate) (c : Candidate) : Bool :=
  !((c.supported || !c.readable) && isOver V s R) &&
    (!c.supported || (window s R).isSome || firstFits V s c.n (c.top + 1))

/-- The supported candidates before the one at `k`. -/
def chosenBefore (cs : List Candidate) (k : Nat) : List Candidate :=
  (cs.take k).filter (·.supported)

/-- The requests of `vc` arrive in time, where a checkpoint was chosen before. -/
def requestsFit (vc : ViewChange) (s : NVInfo) (R : List Candidate) : Bool :=
  let W := summedVCs V.cfg s
  !s.chosenCkpt.isSome || (window s R).all fun w => (intRange (w.1 + 1) w.2).all fun i =>
    s.done i || !cutsOff V i s.rowOf W vc s.done (fun k => settledWith V k s W vc) w.1 w.2

def summarizeFits (vc : ViewChange) (s : NVInfo) : Bool :=
  match vc.ckpt V.cfg.P vc.ls with
  | some c =>
    let cs := candidates V vc (c.getD 0) s
    ((List.range cs.length).all fun k => (cs[k]?).all (candidateFits V s (chosenBefore cs k))) &&
      requestsFit V vc s (chosenBefore cs cs.length)
  | none => true

/-- A view-change that is added to the new-view message. -/
def includeFits (vc : ViewChange) (s : NVInfo) : Bool :=
  match s.nv.bind (·.addViewChange V.cfg vc.id (V.cfg.vcDigest vc)) with
  | some nv => summarizeFits V vc { s with nv := some nv }
  | none => true

/-- How many of the stored view-changes have `p`. -/
def holders (s : NVInfo) (p : ViewChange → Bool) : Nat :=
  (List.range V.cfg.n).countP fun j => (s.vcOf j).any p

/-- The checkpoint that the message picks is the last stable one of its view-change, `f + 1`
view-changes have it, and `2f + 1` are not beyond it. -/
def acceptsCkpt (nv : NewView) (s : NVInfo) : Bool :=
  (s.pickedVC nv.min).any fun vc => decide (vc.ls = nv.min) &&
    (vc.ckpt V.cfg.P nv.min).any fun c => c.any fun d =>
      decide (V.cfg.f + 1 ≤ holders V s (hasCkpt V.cfg.P nv.min d)) &&
        decide (V.cfg.nf ≤ holders V s fun m => decide (m.ls ≤ nv.min))

/-- Where the checkpoint of the new-view message is right, its `max` is: `2f + 1` view-changes have
no request from it on. -/
def maxFits (s : NVInfo) : Bool :=
  s.nv.all fun nv => !acceptsCkpt V nv s ||
    decide (V.cfg.nf ≤ holders V s fun m => decide (m.maxSeqno < nv.max))

/-- A view-change that `add` has stored. -/
def storedFits (m : ViewChange) (s : NVInfo) : Bool :=
  if s.isPrimary V then m.id != V.id || includeFits V m s else s.vcCur != s.vcTarget || maxFits V s

/-- `add` stores the view-change. -/
def stores (m : ViewChange) (verified digestOk : Bool) (s : NVInfo) : Bool :=
  (s.vcOf m.id).isNone && !s.isComplete && (s.isPrimary V || s.names V m == some true) &&
    (verified || !(s.isPrimary V || !digestOk || decide ((s.vcs m.id).ackCount < V.cfg.f)))

def ackWith (m : ViewChangeAck) (s : NVInfo) : NVInfo :=
  { s with vcs := Function.update s.vcs m.vcid (VCInfo.ack (s.vcs m.vcid) m.id) }

/-- An acknowledgement that was counted. -/
def ackFits (m : ViewChangeAck) (s : NVInfo) : Bool :=
  if (s.vcs m.vcid).ackCount + 1 == 2 * V.cfg.f && s.isPrimary V then
    match s.vcOf m.vcid with
    | some vc => includeFits V vc s
    | none => true
  else true

/-- `add` counts the acknowledgement. -/
def counts (m : ViewChangeAck) (s : NVInfo) : Bool :=
  match s.nv with
  | some nv =>
    !s.isComplete && (nv.viewChange V.cfg m.vcid).isNone && ackDigest V s nv m.vcid == some m.vcd &&
      !(s.vcs m.vcid).ackReps.contains m.id
  | none => false

end Fits

/-- The operations of a run for one view: new-view messages, view-changes, acknowledgements, and
missing pre-prepares and prepares. -/
def NVOp.ofView : NVOp → Bool
  | .fetchRequest _ | .markStable _ | .markStale => false
  | _ => true

/-- The code does not go on after the end of the new view. -/
def NVStep.fits (cfg : Cfg) (id : Nat) (s : NVInfo) (a : NVStep) : Bool :=
  let V : NVEnv := ⟨cfg, id, a.prePrepare, a.prepare⟩
  match a.op with
  | .addViewChange m verified digestOk =>
    !stores V m verified digestOk s || storedFits V m (s.store m)
  | .addAck m => !counts V m s || ackFits V m (ackWith m s)
  | _ => true

structure Counted where
  s : NVInfo
  made : Nat

namespace Counted

def new : Counted := ⟨NVInfo.new, 0⟩

def step (cfg : Cfg) (id : Nat) (σ : Counted) (a : NVStep) : Option Counted :=
  if a.op.ofView && a.op.verified cfg id then
    match a.op.perform ⟨cfg, id, a.prePrepare, a.prepare⟩ σ.s with
    | (some _, t) =>
      some ⟨{ t with calls := [] }, (if t.v = σ.s.v then σ.made else 0) + pnvCalls t.calls⟩
    | (none, _) => none
  else none

/-- The new view is completed once and on time, where the next step is one of `ok`. `check_comp`,
`summarize_reqs` and `make_new_view` stop if the new view is complete; so an operation that enters
them then would stop after it has called `process_new_view`, or, where the new view was complete
before it, would not leave everything as it is. -/
structure OnTime (cfg : Cfg) (id : Nat) (ok : NVInfo → NVStep → Bool) (σ : Counted) : Prop where
  count : σ.s.nComplete = σ.s.doneCount
  complete : σ.s.isComplete = true ↔ Settled σ.s
  once : σ.made = if σ.s.isComplete then 1 else 0
  /-- A complete new view is left alone, until there is a message for a later one. -/
  still : σ.s.isComplete = true → ∀ a : NVStep, a.op.ofView = true →
    (∀ v, a.op = .newNewView v → v ≤ σ.s.v) → (∀ m, a.op = .addNewView m → m.v ≤ σ.s.v) →
    (a.op.perform ⟨cfg, id, a.prePrepare, a.prepare⟩ σ.s).2 = σ.s
  /-- An operation that stops has not called `process_new_view`. -/
  stops : ∀ a : NVStep, a.op.ofView = true → a.op.verified cfg id = true → ok σ.s a = true →
    (a.op.perform ⟨cfg, id, a.prePrepare, a.prepare⟩ σ.s).1 = none →
    pnvCalls (a.op.perform ⟨cfg, id, a.prePrepare, a.prepare⟩ σ.s).2.calls = 0

end Counted

variable {V : NVEnv} {cfg : Cfg} {id : Nat} {s t u : NVInfo}

/-! ## Choosing a checkpoint -/

/-- What choosing a checkpoint leaves alone. -/
structure Outer where
  v : Int
  ckpts : List CkptSum
  vcCur : Nat
  vcTarget : Nat
  vcOf : Nat → Option ViewChange
  named : Option (Nat → Digest)

def outer (s : NVInfo) : Outer :=
  ⟨s.v, s.ckpts, s.vcCur, s.vcTarget, s.vcOf, s.nv.map (·.vcInfo)⟩

theorem outer_of_fixed (h : t.fixed = s.fixed) : t.outer = s.outer := by
  simp only [fixed, Fixed.mk.injEq] at h
  obtain ⟨hv, hck, -, -, -, -, -, hcur, htarget, hvcOf, hnamed⟩ := h
  rw [outer, outer, hv, hck, hcur, htarget, hvcOf, hnamed]

theorem inNewView_of_outer (h : t.outer = s.outer) : t.inNewView cfg = s.inNewView cfg :=
  inNewView_of_nv (congrArg Outer.named h)

/-- Candidates as pairs of their sequence number and their `max_seqno`: the later one has no smaller
`max_seqno`. -/
structure Ranks (tops : List (Int × Int)) : Prop where
  le : ∀ e ∈ tops, e.1 ≤ e.2
  mono : ∀ e ∈ tops, ∀ e' ∈ tops, e.1 < e'.1 → e.2 ≤ e'.2

/-- The candidates are those of `tops`, and `max` is not above what is known of the one that is
chosen. -/
structure Ranked (tops : List (Int × Int)) (s : NVInfo) : Prop where
  keys : ∀ (k : Nat) c, s.ckpts[k]? = some c → ∃ m, tops[k]? = some (c.n, m)
  chosen : ∀ k, s.chosenCkpt = some k → ∃ m, tops[k]? = some (s.min, m) ∧
    s.max ≤ m + 1 ∧ s.min < s.max ∧ s.base + s.reqs.length ≤ s.max

/-- Nothing is known of the requests yet. -/
def Untold (s : NVInfo) : Prop :=
  s.nComplete = 0 ∧ s.reqs = [] ∧ s.compReqs = [] ∧ ∀ j, (s.vcs j).reqSum = false

/-- The new view waits for a checkpoint, or for a request. -/
structure Waiting (s : NVInfo) : Prop extends Open s where
  blank : s.chosenCkpt = none → Untold s
  tight : s.chosenCkpt.isSome = true → s.nComplete ≠ s.max - s.min - 1

theorem Waiting.live (h : Waiting s) (hc : s.chosenCkpt.isSome = true) : Live s :=
  ⟨h.toOpen, fun _ => h.tight hc⟩

theorem Ranked.of_fixed {tops : List (Int × Int)} (h : Ranked tops s) (hx : t.fixed = s.fixed) :
    Ranked tops t := by
  simp only [fixed, Fixed.mk.injEq] at hx
  obtain ⟨-, hck, hch, hmin, hmax, hbase, hrows, -⟩ := hx
  constructor
  · rw [hck]
    exact h.keys
  · rw [hch, hmin, hmax, hbase, hrows]
    exact h.chosen

/-- The complete requests that a later checkpoint drops. -/
theorem dropped_eq {n k : Int} (h : s.dropped n = some k) :
    (∀ i, s.min < i → i ≤ n → (s.comp i).isSome = true) ∧
      k = (intRange (s.min + 1) (n + 1)).countP s.done := by
  have hfold : ∀ (l : List Int) (a : Int),
    l.foldlM (fun (k : Int) i => do some (if (← s.comp i).isSome then k + 1 else k)) a = some k →
      (∀ i ∈ l, (s.comp i).isSome = true) ∧ k = a + l.countP s.done := by
    intro l
    induction l with
    | nil =>
      intro a ha
      cases ha
      exact ⟨nofun, by simp⟩
    | cons i l ih =>
      intro a ha
      simp only [List.foldlM_cons, Option.bind_eq_bind, Option.bind_eq_some_iff] at ha
      obtain ⟨a', ⟨o, ho, ha'⟩, hl⟩ := ha
      obtain ⟨h1, h2⟩ := ih a' hl
      cases ha'
      refine ⟨fun x hx => ?_, ?_⟩
      · rcases List.mem_cons.1 hx with rfl | hx
        · rw [ho]
          rfl
        · exact h1 x hx
      · have hd : s.done i = o.isSome := by rw [done, ho, Option.any_some]
        rw [h2, List.countP_cons, hd]
        split
        · push_cast
          omega
        · push_cast
          omega
  obtain ⟨h1, h2⟩ := hfold _ 0 h
  refine ⟨fun i hi hn => h1 i (mem_intRange.2 ⟨by omega, by omega⟩), ?_⟩
  rw [h2, zero_add]

theorem comp_lt {i : Int} (h : (s.comp i).isSome = true) : i < s.base + s.reqs.length := by
  obtain ⟨o, ho⟩ := Option.isSome_iff_exists.1 h
  simp only [comp, Option.bind_eq_bind, Option.bind_eq_some_iff] at ho
  obtain ⟨r, hr, -⟩ := ho
  obtain ⟨h0, hri, hlt⟩ := row_eq hr
  omega

/-! ### The candidates that are chosen -/

theorem window_snoc (s : NVInfo) (R : List Candidate) (c : Candidate) :
    window s (R ++ [c]) = narrow (window s R) c := by
  rw [window, List.foldl_append]
  rfl

/-- The candidates `R` were chosen one after the other; `s` is the state before them. -/
structure Progress (V : NVEnv) (s : NVInfo) (R : List Candidate) (t : NVInfo) : Prop where
  start : R = [] → t = { s with ckpts := t.ckpts }
  unchosen : t.chosenCkpt = none → R = []
  window : t.chosenCkpt.isSome = true → window s R = some (t.min, t.max)
  settled : t.chosenCkpt.isSome = true → ∀ i, t.min < i → i < t.max → t.done i = true →
    settledIn V s i = true
  kept : s.chosenCkpt.isSome = true → t.vcs = s.vcs ∧ ∀ i, Apart i s t

theorem Progress.refl (s : NVInfo) : Progress V s [] s where
  start _ := rfl
  unchosen _ := rfl
  window hc := by rw [NVInfo.window, if_pos hc, List.foldl_nil]
  settled hc i _ _ hd := by rw [settledIn, if_pos hc, hd]
  kept _ := ⟨rfl, fun i => .refl i s⟩

theorem Progress.chosen {R : List Candidate} (h : Progress V s R t)
    (hs : s.chosenCkpt.isSome = true) : t.chosenCkpt.isSome = true := by
  cases ht : t.chosenCkpt with
  | some k => rfl
  | none =>
    rw [h.start (h.unchosen ht)] at ht
    have ht : s.chosenCkpt = none := ht
    simp [ht] at hs

theorem Progress.ckpts {R : List Candidate} (h : Progress V s R t) (ckpts : List CkptSum) :
    Progress V s R { t with ckpts } where
  start hR := by
    conv_lhs => rw [h.start hR]
  unchosen := h.unchosen
  window := h.window
  settled := h.settled
  kept hs := ⟨(h.kept hs).1, fun i => ⟨((h.kept hs).2 i).comp, ((h.kept hs).2 i).cells⟩⟩

/-- In a new view that has ended, there is nothing left to settle. -/
theorem Progress.isOver {R : List Candidate} (h : Progress V s R t) (he : Ended t)
    (hc : t.chosenCkpt.isSome = true) : isOver V s R = true := by
  rw [NVInfo.isOver, h.window hc, Option.any_some, List.all_eq_true]
  intro i hi
  obtain ⟨h1, h2⟩ := mem_intRange.1 hi
  have h1 : t.min < i := by omega
  exact h.settled hc i h1 h2 (he.done ⟨h1, h2⟩)

theorem firstFits_congr (hin : t.inNewView V.cfg = s.inNewView V.cfg) (hv : t.vcOf = s.vcOf)
    (lo hi : Int) : firstFits V t lo hi = firstFits V s lo hi := by
  simp only [firstFits, includedVCs, hin, hv]

/-- The checkpoint `cur` is the first one that is chosen. -/
def first (index : Nat) (cur : CkptSum) (s : NVInfo) : NVInfo := { s with
  chosenCkpt := some index, min := cur.n, base := cur.n + 1, max := cur.maxSeqno + 1
  reqs := s.reqs ++ List.replicate (cur.maxSeqno + 1 - (cur.n + 1)).toNat []
  compReqs := List.replicate (s.compReqs.length + (cur.maxSeqno + 1 - (cur.n + 1)).toNat) none }

theorem first_cell (h : s.reqs = []) (index : Nat) (cur : CkptSum) (i : Int) (j : Nat) :
    (first index cur s).cell i j = none := by
  cases hc : (first index cur s).cell i j with
  | none => rfl
  | some c =>
    obtain ⟨k, r, -, hk, hj⟩ := cell_eq_some.1 hc
    simp only [first, h, List.nil_append] at hk
    rw [replicate_nil hk] at hj
    cases hj

section Choose

variable {tops : List (Int × Int)} {index : Nat} {cur : CkptSum}

/-- The first checkpoint. -/
theorem chooseFirst_ensures (h : Waiting s) (hn : s.chosenCkpt = none) (hk : Ranked tops s)
    (htop : tops[index]? = some (cur.n, cur.maxSeqno))
    (hfiled : ∀ j m, s.vcOf j = some m → m.id = j)
    (hf : firstFits V s cur.n (cur.maxSeqno + 1) = true) :
    Ensures (chooseFirst V index cur) s
      (fun b t => t.outer = s.outer ∧ t.chosenCkpt.isSome = true ∧ Ranked tops t ∧
        (t.min = cur.n ∧ t.max = cur.maxSeqno + 1 ∧ ∀ i, t.min < i → i < t.max →
          t.done i = true → settles V i (includedVCs V.cfg s V.cfg.n) = true) ∧
        if b then Ended t else Live t)
      fun t => pnvCalls t.calls = 0 := by
  refine Reaches.assert_bind h.quiet fun hpos => Reaches.modify_bind trivial ?_
  have hpos : 0 ≤ cur.maxSeqno + 1 - (cur.n + 1) := of_decide_eq_true hpos
  obtain ⟨hzero, hreqs, -, hsum⟩ := h.blank hn
  have hundone : ∀ i, (first index cur s).done i = false :=
    done_unmarked fun o ho => List.eq_of_mem_replicate ho
  have hlive : Live (first index cur s) := by
    refine ⟨⟨h.isOpen, h.quiet, ?_⟩, fun hlt => ?_⟩
    · rw [doneCount_unmarked fun o ho => List.eq_of_mem_replicate ho]
      exact hzero
    · have hlt : cur.n + 1 < cur.maxSeqno + 1 := hlt
      have hz : (first index cur s).nComplete = 0 := hzero
      have hspan : (first index cur s).max - (first index cur s).min -
        1 = cur.maxSeqno + 1 - cur.n - 1 := rfl
      omega
  have hranked : Ranked tops (first index cur s) := by
    refine ⟨hk.keys, fun k hk => ?_⟩
    cases hk
    refine ⟨cur.maxSeqno, htop, le_rfl, ?_, ?_⟩
    · show cur.n < cur.maxSeqno + 1
      omega
    · show cur.n + 1 + ((s.reqs ++ List.replicate (cur.maxSeqno + 1 - (cur.n + 1)).toNat
        []).length : Nat) ≤ cur.maxSeqno + 1
      rw [hreqs, List.nil_append, List.length_replicate]
      omega
  -- the rows are empty
  have hcell := first_cell hreqs index cur
  have hincluding : Including V (first index cur s) 0 (first index cur s) := by
    refine ⟨rfl, fun j => ?_, ⟨fun i _ _ => List.ext_getElem? fun j => ?_, fun i j c hc => ?_,
      fun i _ _ hd => ?_⟩, hlive⟩
    · have hj : ((first index cur s).vcs j).reqSum = false := hsum j
      simp [hj]
    · rw [rowOf_getElem, hcell]
      rfl
    · rw [hcell] at hc
      cases hc
    · rw [hundone] at hd
      cases hd
  have hmin : (first index cur s).min = cur.n := rfl
  have hmax : (first index cur s).max = cur.maxSeqno + 1 := rfl
  refine Reaches.mono (sumVCs_ensures hincluding hfiled hf) fun b t ⟨hx, hdone, hb⟩ => ?_
  have hfirst : (first index cur s).outer = s.outer := rfl
  refine ⟨(outer_of_fixed hx).trans hfirst, ?_, hranked.of_fixed hx,
    ⟨min_of_fixed hx, max_of_fixed hx, fun i h1 h2 hd => ?_⟩, hb⟩
  · rw [show t.chosenCkpt = some index from congrArg Fixed.chosenCkpt hx]
    rfl
  · rw [min_of_fixed hx] at h1
    rw [max_of_fixed hx] at h2
    exact hdone i h1 h2 hd

/-- A later checkpoint: `max` stays, and the requests that are dropped are no longer counted. -/
theorem chooseLater_ensures (h : Open s) (hr : Ranks tops) (hk : Ranked tops s)
    (htop : tops[index]? = some (cur.n, cur.maxSeqno)) :
    Ensures (chooseLater index cur) s
      (fun _ t => t.outer = s.outer ∧ t.chosenCkpt.isSome = true ∧ Ranked tops t ∧
        (t.min = (if s.min < cur.n then cur.n else s.min) ∧ t.max = s.max ∧ t.vcs = s.vcs ∧
          ∀ i, Apart i s t) ∧ Open t)
      fun t => pnvCalls t.calls = 0 := by
  refine Reaches.get_bind (Reaches.ofOption_bind h.quiet fun old hold => ?_)
  obtain ⟨c, hc, hget⟩ := Option.bind_eq_some_iff.1 hold
  obtain ⟨m, hm, hmax, hlt, hrows⟩ := hk.chosen c hc
  obtain ⟨m', hm'⟩ := hk.keys c old hget
  have hold : s.min = old.n := by
    rw [hm] at hm'
    exact congrArg Prod.fst (Option.some.inj hm')
  refine Reaches.when (fun hlater => ?_) fun hlater =>
    ⟨rfl, by rw [hc]; rfl, hk, ⟨(if_neg ?_).symm, rfl, rfl, fun i => .refl i s⟩, h⟩
  · have hlater : old.n < cur.n := by simpa using hlater
    refine Reaches.ofOption_bind h.quiet fun k hdrop => Reaches.modify trivial ?_
    obtain ⟨hdef, hcount⟩ := dropped_eq hdrop
    have hcurlt : cur.n < s.max := by
      by_contra hge
      have := comp_lt (hdef s.max hlt (by omega))
      omega
    -- the candidate is later than the one that `max` comes from
    have htops : m ≤ cur.maxSeqno :=
      hr.mono _ (List.mem_of_getElem? hm) _ (List.mem_of_getElem? htop) (by omega)
    have hkeep : (if cur.maxSeqno + 1 < s.max then cur.maxSeqno + 1 else s.max) = s.max :=
      if_neg (by omega)
    rw [hkeep]
    refine ⟨rfl, rfl, ⟨hk.keys, fun k hk => ?_⟩,
      ⟨(if_pos (by omega)).symm, rfl, rfl, fun i => ⟨rfl, fun _ => rfl⟩⟩, h.isOpen, h.quiet, ?_⟩
    · cases hk
      have hmax' : s.max ≤ cur.maxSeqno + 1 := by omega
      exact ⟨cur.maxSeqno, htop, hmax', hcurlt, hrows⟩
    · have hsplit : s.doneCount = (intRange (s.min + 1) (cur.n + 1)).countP s.done +
        (intRange (cur.n + 1) s.max).countP s.done := by
        rw [doneCount, intRange_append (by omega : s.min + 1 ≤ cur.n + 1) (by omega),
          List.countP_append]
      have hs := h.count
      rw [hsplit] at hs
      show s.nComplete - k = ((intRange (cur.n + 1) s.max).countP s.done : Nat)
      omega
  · have hlater : ¬old.n < cur.n := by simpa using hlater
    omega

theorem Still.apart (h : Still s t) (i : Int) : Apart i s t :=
  ⟨comp_of_slots h.slots i, h.cell i⟩

/-- The end of `choose_ckpt`. -/
theorem Progress.finish {R : List Candidate} {c : Candidate}
    (hp : Progress V s (R ++ [c]) t) (hch : t.chosenCkpt.isSome = true) (hk : Ranked tops t)
    (h : Open t) :
    Ensures (finishIf (makeNewView V)) t
      (fun _ u => u.outer = t.outer ∧ Ranked tops u ∧ u.chosenCkpt.isSome = true ∧
        (Waiting u ∨ Ended u) ∧ Progress V s (R ++ [c]) u)
      fun u => pnvCalls u.calls = 0 := by
  refine Reaches.mono (finishIf_ensures makeNewView_announces h) fun _ u ⟨hst, hu⟩ => ?_
  have hchu : u.chosenCkpt.isSome = true := by
    rw [show u.chosenCkpt = t.chosenCkpt from congrArg Fixed.chosenCkpt hst.fixed]
    exact hch
  have hmin := min_of_fixed hst.fixed
  have hmax := max_of_fixed hst.fixed
  have hset : Waiting u ∨ Ended u := by
    refine hu.imp (fun ⟨hu, hne⟩ => ⟨hu, fun hn => ?_, fun _ => ?_⟩) And.left
    · rw [hn] at hchu
      cases hchu
    · exact mt (full_of_slots hst.slots).1 hne
  refine ⟨outer_of_fixed hst.fixed, hk.of_fixed hst.fixed, hchu, hset, fun hnil => ?_,
    fun hn => ?_, fun _ => ?_, fun _ i h1 h2 hd => ?_, fun hs => ?_⟩
  · simp at hnil
  · rw [hn] at hchu
    cases hchu
  · rw [hmin, hmax]
    exact hp.window hch
  · rw [(hst.apart i).done] at hd
    exact hp.settled hch i (by omega) (by omega) hd
  · obtain ⟨hvcs, hapart⟩ := hp.kept hs
    exact ⟨hst.vcs.trans hvcs, fun i => (hapart i).trans (hst.apart i)⟩

/-- **`choose_ckpt`**, of the next candidate. -/
theorem chooseCkpt_ensures {R : List Candidate} {c : Candidate} (h : Waiting t)
    (hp : Progress V s R t) (hr : Ranks tops) (hk : Ranked tops t)
    (hcur : t.ckpts[index]? = some cur) (htop : tops[index]? = some (c.n, c.top))
    (hc : cur.n = c.n ∧ cur.maxSeqno = c.top) (hfiled : ∀ j m, s.vcOf j = some m → m.id = j)
    (hf : (window s R).isSome = true ∨ firstFits V s c.n (c.top + 1) = true) :
    Ensures (chooseCkpt V index) t
      (fun _ u => u.outer = t.outer ∧ Ranked tops u ∧ u.chosenCkpt.isSome = true ∧
        (Waiting u ∨ Ended u) ∧ Progress V s (R ++ [c]) u)
      fun u => pnvCalls u.calls = 0 := by
  rw [← hc.1, ← hc.2] at hf htop
  refine Reaches.get_bind (Reaches.assert_bind h.quiet
    fun _ => Reaches.ofOption_bind h.quiet fun cur' hcur' => ?_)
  rw [hcur] at hcur'
  cases hcur'
  refine Reaches.assert_bind h.quiet fun _ => Reaches.ite (fun hn => ?_) fun hn => ?_
  · -- the first one: nothing has changed but the counts of the candidates
    have hnone : t.chosenCkpt = none := by simpa using hn
    have hR := hp.unchosen hnone
    subst hR
    have hstart := hp.start rfl
    have hs : s.chosenCkpt = none := by
      rw [hstart] at hnone
      exact hnone
    have hw : window s [] = none := by simp [window, hs]
    have hv : t.vcOf = s.vcOf := by
      rw [hstart]
      rfl
    have hin : t.inNewView V.cfg = s.inNewView V.cfg := by
      rw [hstart]
      rfl
    have hinc : includedVCs V.cfg t V.cfg.n = includedVCs V.cfg s V.cfg.n := by
      rw [includedVCs, includedVCs, hin, hv]
    have hfirst := hf.resolve_left (by simp [hw])
    rw [← firstFits_congr hin hv] at hfirst
    refine Ensures.bind (chooseFirst_ensures h hnone hk htop (by rwa [hv]) hfirst)
      fun b u hu => ?_
    obtain ⟨ho, hch, hku, ⟨hmin, hmax, hdone⟩, hb⟩ := hu
    have hpu : Progress V s ([] ++ [c]) u := by
      refine ⟨by simp, fun hn => by simp [hn] at hch, fun _ => ?_, fun _ i h1 h2 hd => ?_,
        fun hsome => by simp [hs] at hsome⟩
      · rw [window_snoc, hw, hmin, hmax, hc.1, hc.2]
        rfl
      · have hset := hdone i h1 h2 hd
        rw [hinc] at hset
        rw [settledIn, hs]
        exact hset
    cases b with
    | true => exact Reaches.pure ⟨ho, hku, hch, .inr hb, hpu⟩
    | false =>
      exact Reaches.mono (hpu.finish hch hku hb.toOpen) fun _ w hw => ⟨hw.1.trans ho, hw.2⟩
  · have hsome : t.chosenCkpt.isSome = true := by
      cases ht : t.chosenCkpt with
      | none => simp [ht] at hn
      | some k => rfl
    refine Ensures.bind (chooseLater_ensures h.toOpen hr hk htop) fun _ u hlater => ?_
    obtain ⟨ho, hch, hku, ⟨hmin, hmax, hvcs, hapart⟩, hu⟩ := hlater
    have hpu : Progress V s (R ++ [c]) u := by
      refine ⟨by simp, fun hn => by simp [hn] at hch, fun _ => ?_, fun _ i h1 h2 hd => ?_,
        fun hs => ?_⟩
      · rw [window_snoc, hp.window hsome, hmin, hmax, hc.1]
        rfl
      · rw [(hapart i).done] at hd
        have hge : t.min ≤ u.min := by
          rw [hmin]
          split <;> omega
        exact hp.settled hsome i (by omega) (by omega) hd
      · obtain ⟨hv, ha⟩ := hp.kept hs
        exact ⟨hvcs.trans hv, fun i => (ha i).trans (hapart i)⟩
    exact Reaches.mono (hpu.finish hch hku hu) fun _ w hw => ⟨hw.1.trans ho, hw.2⟩

end Choose

/-! ## The candidates -/

def topsOf (ckpts : List CkptSum) : List (Int × Int) := ckpts.map fun c => (c.n, c.maxSeqno)

theorem topsOf_getElem {ckpts : List CkptSum} {k : Nat} {c : CkptSum} (h : ckpts[k]? = some c) :
    (topsOf ckpts)[k]? = some (c.n, c.maxSeqno) := by
  rw [topsOf, List.getElem?_map, h]
  rfl

theorem mem_topsOf {ckpts : List CkptSum} {e : Int × Int} :
    e ∈ topsOf ckpts ↔ ∃ c ∈ ckpts, (c.n, c.maxSeqno) = e := List.mem_map

theorem raised_pos {vc : ViewChange} {vclc : Digest} {c : CkptSum}
    (h : (c.n = vc.ls ∧ c.d = vclc) ∨ vc.ls < c.n) :
    raised vc vclc c = if c.maxSeqno < vc.maxSeqno then vc.maxSeqno else c.maxSeqno := if_pos h

theorem raised_neg {vc : ViewChange} {vclc : Digest} {c : CkptSum}
    (h : ¬((c.n = vc.ls ∧ c.d = vclc) ∨ vc.ls < c.n)) :
    raised vc vclc c = c.maxSeqno := if_neg h

theorem le_raised (vc : ViewChange) (vclc : Digest) (c : CkptSum) :
    c.maxSeqno ≤ raised vc vclc c := by
  unfold raised
  split
  · split <;> omega
  · exact le_rfl

/-- A candidate once `vc` is counted. -/
theorem countCkpt_ofCkpt {vc : ViewChange} {vclc : Digest} {c c' : CkptSum}
    (h : countCkpt V vc vclc c = some c') :
    c'.n = c.n ∧ c'.maxSeqno = raised vc vclc c ∧
      (decide (V.cfg.f + 1 ≤ c'.nProofs) && decide (V.cfg.nf ≤ c'.nLe)) =
        (Candidate.ofCkpt V vc vclc c).supported := by
  simp only [countCkpt, Option.bind_eq_bind] at h
  by_cases hm : c.n = vc.ls ∧ c.d = vclc
  · rw [if_pos hm] at h
    cases h
    refine ⟨rfl, (raised_pos (.inl hm)).symm, ?_⟩
    simp [Candidate.ofCkpt, isOwn, hm]
  · rw [if_neg hm] at h
    obtain ⟨o, ho, h⟩ := Option.bind_eq_some_iff.1 h
    cases h
    have hown : isOwn vc vclc c = false := by simpa [isOwn] using hm
    have hhas : hasCkpt V.cfg.P c.n c.d vc = decide (o = some c.d) := by
      rw [hasCkpt, ho, Bool.eq_iff_iff]
      simp
    by_cases hd : o = some c.d
    · by_cases hlt : vc.ls < c.n
      · simp [raised, Candidate.ofCkpt, hown, hhas, hd, hlt]
      · simp [raised, Candidate.ofCkpt, hown, hhas, hm, hd, hlt]
    · by_cases hlt : vc.ls < c.n
      · simp [raised, Candidate.ofCkpt, hown, hhas, hd, hlt]
      · simp [raised, Candidate.ofCkpt, hown, hhas, hm, hd, hlt]

theorem countCkpt_isSome {vc : ViewChange} {vclc : Digest} {c : CkptSum}
    (h : (Candidate.ofCkpt V vc vclc c).readable = true) :
    ∃ c', countCkpt V vc vclc c = some c' := by
  simp only [countCkpt, Option.bind_eq_bind]
  by_cases hm : c.n = vc.ls ∧ c.d = vclc
  · exact ⟨_, if_pos hm⟩
  · have hown : isOwn vc vclc c = false := by simpa [isOwn] using hm
    rw [Candidate.ofCkpt, hown, Bool.false_or] at h
    obtain ⟨o, ho⟩ := Option.isSome_iff_exists.1 h
    rw [if_neg hm, ho]
    exact ⟨_, rfl⟩

theorem Ranks.raised {ckpts : List CkptSum} (h : Ranks (topsOf ckpts)) (vc : ViewChange)
    (vclc : Digest) :
    Ranks (ckpts.map fun c => (c.n, NVInfo.raised vc vclc c)) := by
  constructor
  · intro e he
    obtain ⟨c, hc, rfl⟩ := List.mem_map.1 he
    exact (h.le _ (mem_topsOf.2 ⟨c, hc, rfl⟩)).trans (le_raised vc vclc c)
  · intro e he e' he' hlt
    obtain ⟨c, hc, rfl⟩ := List.mem_map.1 he
    obtain ⟨c', hc', rfl⟩ := List.mem_map.1 he'
    have hlt : c.n < c'.n := hlt
    have hle : c.maxSeqno ≤ c'.maxSeqno :=
      h.mono _ (mem_topsOf.2 ⟨c, hc, rfl⟩) _ (mem_topsOf.2 ⟨c', hc', rfl⟩) hlt
    show NVInfo.raised vc vclc c ≤ NVInfo.raised vc vclc c'
    -- where `c` is raised, so is the later `c'`
    by_cases hc : (c.n = vc.ls ∧ c.d = vclc) ∨ vc.ls < c.n
    · have hc' : vc.ls < c'.n := by omega
      rw [raised_pos hc, raised_pos (.inr hc')]
      split <;> split <;> omega
    · rw [raised_neg hc]
      exact hle.trans (le_raised vc vclc c')

/-- The largest `max_seqno` of a list of candidates. -/
theorem foldl_maxSeqno (l : List CkptSum) (a : Int) :
    a ≤ l.foldl (fun m cur => if m < cur.maxSeqno then cur.maxSeqno else m) a ∧
      (∀ c ∈ l,
          c.maxSeqno ≤ l.foldl (fun m cur => if m < cur.maxSeqno then cur.maxSeqno else m) a) ∧
      ∀ b, a ≤ b → (∀ c ∈ l, c.maxSeqno ≤ b) →
        l.foldl (fun m cur => if m < cur.maxSeqno then cur.maxSeqno else m) a ≤ b := by
  induction l generalizing a with
  | nil => exact ⟨le_rfl, nofun, fun b hb _ => hb⟩
  | cons c l ih =>
    obtain ⟨h1, h2, h3⟩ := ih (if a < c.maxSeqno then c.maxSeqno else a)
    rw [List.foldl_cons]
    have hle : a ≤ (if a < c.maxSeqno then c.maxSeqno else a) ∧
      c.maxSeqno ≤ (if a < c.maxSeqno then c.maxSeqno else a) := by
      split <;> omega
    refine ⟨hle.1.trans h1, fun x hx => ?_, fun b ha hb =>
      h3 b ?_ fun x hx => hb x (List.mem_cons_of_mem _ hx)⟩
    · rcases List.mem_cons.1 hx with rfl | hx
      · exact hle.2.trans h1
      · exact h2 x hx
    · have := hb c List.mem_cons_self
      split <;> omega

def Settling (s : NVInfo) : Prop := Waiting s ∨ Ended s ∧ s.chosenCkpt.isSome = true

theorem Waiting.ckpts (h : Waiting s) (ckpts : List CkptSum) : Waiting { s with ckpts } :=
  ⟨⟨h.isOpen, h.quiet, h.count⟩, h.blank, h.tight⟩

theorem Settling.ckpts (h : Settling s) (ckpts : List CkptSum) : Settling { s with ckpts } :=
  h.imp (fun hw => hw.ckpts ckpts) fun ⟨he, hc⟩ => ⟨⟨he.complete, he.called, he.count, he.full⟩, hc⟩

theorem chosenBefore_succ {cs : List Candidate} {k : Nat} {c : Candidate} (h : cs[k]? = some c) :
    chosenBefore cs (k + 1) = chosenBefore cs k ++ if c.supported then [c] else [] := by
  rw [chosenBefore, List.take_add_one, h, List.filter_append, chosenBefore]
  congr 1
  cases hc : c.supported <;> simp [hc]

/-- `summarize` has come to the candidate `k`. -/
structure Counting (V : NVEnv) (vc : ViewChange) (vclc : Digest) (s : NVInfo) (k : Nat)
    (t : NVInfo) : Prop where
  v : t.v = s.v
  vcs : t.vcCur = s.vcCur ∧ t.vcTarget = s.vcTarget
  vcOf : t.vcOf = s.vcOf
  named : t.inNewView V.cfg = s.inNewView V.cfg
  length : t.ckpts.length = s.ckpts.length
  ckpts : ∀ (j : Nat) c', t.ckpts[j]? = some c' → ∃ c, s.ckpts[j]? = some c ∧ c'.n = c.n ∧
    if k ≤ j then c' = c else c'.maxSeqno = raised vc vclc c
  ranked : Ranked (s.ckpts.map fun c => (c.n, raised vc vclc c)) t
  settling : Settling t
  progress : Progress V s (chosenBefore (candidates V vc vclc s) k) t

section Summarize

variable {vc : ViewChange} {vclc : Digest} {k : Nat}

theorem candidates_getElem {c : CkptSum} (h : s.ckpts[k]? = some c) :
    (candidates V vc vclc s)[k]? = some (Candidate.ofCkpt V vc vclc c) := by
  have hlt := (List.getElem?_eq_some_iff.1 h).1
  rw [candidates, List.getElem?_append_left (by simpa using hlt), List.getElem?_map, h,
    Option.map_some]

/-- The candidate `k` is counted. -/
theorem Counting.put (h : Counting V vc vclc s k t) {cur cur' : CkptSum}
    (hcur : t.ckpts[k]? = some cur) (hcur' : countCkpt V vc vclc cur = some cur') :
    Ranked (s.ckpts.map fun c => (c.n, raised vc vclc c)) { t with ckpts := t.ckpts.set k cur' } ∧
      (s.ckpts.map fun c => (c.n, raised vc vclc c))[k]? = some (cur'.n, cur'.maxSeqno) ∧
      s.ckpts[k]? = some cur ∧
      ∀ (j : Nat) c', (t.ckpts.set k cur')[j]? = some c' → ∃ c, s.ckpts[j]? = some c ∧
        c'.n = c.n ∧ if k + 1 ≤ j then c' = c else c'.maxSeqno = raised vc vclc c := by
  obtain ⟨hn, hmax, -⟩ := countCkpt_ofCkpt hcur'
  have hlt := (List.getElem?_eq_some_iff.1 hcur).1
  obtain ⟨c, hc, -, heq⟩ := h.ckpts k cur hcur
  rw [if_pos le_rfl] at heq
  subst heq
  have htop : (s.ckpts.map fun c => (c.n, raised vc vclc c))[k]? =
    some (cur'.n, cur'.maxSeqno) := by
    rw [List.getElem?_map, hc, hn, hmax]
    rfl
  refine ⟨⟨fun j c' hj => ?_, h.ranked.chosen⟩, htop, hc, fun j c' hj => ?_⟩
  · by_cases hjk : j = k
    · subst hjk
      rw [List.getElem?_set_self hlt] at hj
      cases hj
      exact ⟨_, htop⟩
    · rw [List.getElem?_set_ne (Ne.symm hjk)] at hj
      exact h.ranked.keys j c' hj
  · by_cases hjk : j = k
    · subst hjk
      rw [List.getElem?_set_self hlt] at hj
      cases hj
      exact ⟨cur, hc, hn, by rw [if_neg (by omega)]; exact hmax⟩
    · rw [List.getElem?_set_ne (Ne.symm hjk)] at hj
      obtain ⟨c, hc, hcn, hrest⟩ := h.ckpts j c' hj
      refine ⟨c, hc, hcn, ?_⟩
      by_cases hkj : k ≤ j
      · rw [if_pos hkj] at hrest
        rwa [if_pos (by omega)]
      · rw [if_neg hkj] at hrest
        rwa [if_neg (by omega)]

/-- Where the new view has ended, the next candidate is not chosen, and can be read. -/
theorem Progress.still {R : List Candidate} {c : Candidate} (h : Progress V s R t) (he : Ended t)
    (hc : t.chosenCkpt.isSome = true) (hf : candidateFits V s R c = true) :
    c.supported = false ∧ c.readable = true := by
  rw [candidateFits, h.isOver he hc] at hf
  simpa using (Bool.and_eq_true_iff.1 hf).1

/-- A supported candidate is chosen before the new view has ended, and if it is the first one, the
requests arrive in time. -/
theorem Counting.chooses (h : Counting V vc vclc s k t) {c : Candidate}
    (hf : candidateFits V s (chosenBefore (candidates V vc vclc s) k) c = true)
    (hc : c.supported = true) :
    Waiting t ∧ ((window s (chosenBefore (candidates V vc vclc s) k)).isSome = true ∨
      firstFits V s c.n (c.top + 1) = true) := by
  refine ⟨h.settling.resolve_right ?_, ?_⟩
  · rintro ⟨he, hch⟩
    simp [(h.progress.still he hch hf).1] at hc
  · have hchoice := (Bool.and_eq_true_iff.1 hf).2
    rwa [hc, Bool.not_true, Bool.false_or, Bool.or_eq_true] at hchoice

/-- One candidate. -/
theorem sumCkpt_ensures (h : Counting V vc vclc s k t) (hk : k < s.ckpts.length)
    (hr : Ranks (topsOf s.ckpts)) (hfiled : ∀ j m, s.vcOf j = some m → m.id = j)
    (hf : ∀ c, (candidates V vc vclc s)[k]? = some c →
      candidateFits V s (chosenBefore (candidates V vc vclc s) k) c = true) :
    Ensures (sumCkpt V vc vclc k) t (fun _ u => Counting V vc vclc s (k + 1) u)
      fun u => pnvCalls u.calls = 0 := by
  refine Reaches.get_bind ?_
  have hgo : ∀ {cur cur' : CkptSum}, t.ckpts[k]? = some cur → countCkpt V vc vclc cur = some cur' →
      Ensures (do
        modify fun s => { s with ckpts := s.ckpts.set k cur' }
        when (V.cfg.f + 1 ≤ cur'.nProofs && V.cfg.nf ≤ cur'.nLe) (chooseCkpt V k)) t
        (fun _ u => Counting V vc vclc s (k + 1) u) fun u => pnvCalls u.calls = 0 := by
    intro cur cur' hcur hcur'
    obtain ⟨hranked, htop, hc, hckpts⟩ := h.put hcur hcur'
    have hlen : (t.ckpts.set k cur').length = s.ckpts.length := by
      rw [List.length_set]
      exact h.length
    have hcand : (candidates V vc vclc s)[k]? = some (Candidate.ofCkpt V vc vclc cur) :=
      candidates_getElem hc
    obtain ⟨hn, hmax, hsup⟩ := countCkpt_ofCkpt hcur'
    have hnext := chosenBefore_succ hcand
    have hfit := hf _ hcand
    refine Reaches.modify_bind trivial (Reaches.when (fun hsupp => ?_) fun hno => ?_)
    · have hsupp : (Candidate.ofCkpt V vc vclc cur).supported = true := hsup ▸ hsupp
      obtain ⟨hw, hchoice⟩ := h.chooses hfit hsupp
      rw [hsupp, if_pos rfl] at hnext
      refine Reaches.mono (chooseCkpt_ensures (hw.ckpts _) (h.progress.ckpts _) (hr.raised vc vclc)
        hranked (List.getElem?_set_self (List.getElem?_eq_some_iff.1 hcur).1)
        (by rw [htop, hn, hmax]; rfl) ⟨hn, hmax⟩ hfiled hchoice) fun _ u hu => ?_
      obtain ⟨ho, hku, hch, hu, hp⟩ := hu
      have hin : u.inNewView V.cfg = s.inNewView V.cfg := (inNewView_of_outer ho).trans h.named
      simp only [outer, Outer.mk.injEq] at ho
      obtain ⟨hv, hck, hcur, htarget, hof, -⟩ := ho
      refine ⟨hv.trans h.v, ⟨hcur.trans h.vcs.1, htarget.trans h.vcs.2⟩, hof.trans h.vcOf,
        hin, ?_, ?_, hku, hu.imp id fun he => ⟨he, hch⟩, hnext ▸ hp⟩
      · rw [hck]
        exact hlen
      · rw [hck]
        exact hckpts
    · have hno : (Candidate.ofCkpt V vc vclc cur).supported = false := hsup ▸ hno
      rw [hno, if_neg Bool.false_ne_true, List.append_nil] at hnext
      exact ⟨h.v, h.vcs, h.vcOf, h.named, hlen, hckpts, hranked, h.settling.ckpts _,
        hnext ▸ h.progress.ckpts _⟩
  rcases h.settling with hw | ⟨he, hch⟩
  · exact Reaches.ofOption_bind hw.quiet fun cur hcur =>
      Reaches.ofOption_bind hw.quiet fun cur' hcur' => hgo hcur hcur'
  · -- nothing stops the code here
    obtain ⟨cur, hcur⟩ : ∃ cur, t.ckpts[k]? = some cur :=
      ⟨_, List.getElem?_eq_getElem (by rw [h.length]; exact hk)⟩
    obtain ⟨c, hc, -, heq⟩ := h.ckpts k cur hcur
    rw [if_pos le_rfl] at heq
    subst heq
    have hread := (h.progress.still he hch (hf _ (candidates_getElem hc))).2
    obtain ⟨cur', hcur'⟩ := countCkpt_isSome hread
    exact Reaches.some_bind hcur (Reaches.some_bind hcur' (hgo hcur hcur'))

/-- The candidates, in order. -/
theorem sumCkpts_ensures (hw : Waiting s) (hr : Ranks (topsOf s.ckpts))
    (hk : Ranked (topsOf s.ckpts) s) (hfiled : ∀ j m, s.vcOf j = some m → m.id = j)
    (hf : ∀ k c, (candidates V vc vclc s)[k]? = some c →
      candidateFits V s (chosenBefore (candidates V vc vclc s) k) c = true) :
    Ensures (each (sumCkpt V vc vclc) (List.range s.ckpts.length))
      s (fun _ t => Counting V vc vclc s s.ckpts.length t) fun t => pnvCalls t.calls = 0 := by
  let I (is : List Nat) (t : NVInfo) : Prop := ∃ k, is = List.range' k (s.ckpts.length - k) ∧
    k ≤ s.ckpts.length ∧ Counting V vc vclc s k t
  refine Reaches.mono (Reaches.each (I := I) ?_ _ s ⟨0, List.range_eq_range', Nat.zero_le _, ?_⟩)
    fun _ t ⟨k, hnil, hle, ht⟩ => ?_
  · rintro i is t ⟨k, his, hle, ht⟩
    obtain ⟨rfl, hlt, rfl⟩ := List.range'_eq_cons_iff.1 his.symm
    exact Reaches.mono (sumCkpt_ensures ht (by omega) hr hfiled (hf k))
      fun _ u hu => ⟨k + 1, by rw [Nat.sub_sub], by omega, hu⟩
  · refine ⟨rfl, ⟨rfl, rfl⟩, rfl, rfl, rfl, fun k c hc => ⟨c, hc, rfl, by simp⟩,
      ⟨fun k c hc => ⟨raised vc vclc c, ?_⟩, fun k hch => ?_⟩, .inl hw, .refl s⟩
    · rw [List.getElem?_map, hc]
      rfl
    · obtain ⟨m, hm, hmax, hspan, hrows⟩ := hk.chosen k hch
      obtain ⟨c, hc, heq⟩ := Option.map_eq_some_iff.1 (List.getElem?_map (i := k) ▸ hm)
      obtain ⟨h1, h2⟩ := Prod.mk.inj heq
      refine ⟨raised vc vclc c, ?_, ?_, hspan, hrows⟩
      · rw [List.getElem?_map, hc, ← h1]
        rfl
      · have := le_raised vc vclc c
        omega
  · have hlen : s.ckpts.length - k = 0 := by
      have := congrArg List.length hnil
      simpa using this.symm
    have hk : k = s.ckpts.length := by omega
    exact hk ▸ ht

end Summarize

section Summarize

variable {vc : ViewChange} {vclc : Digest}

/-- Between two view-changes. -/
structure Rest (s t : NVInfo) : Prop where
  v : t.v = s.v
  vcs : t.vcCur = s.vcCur ∧ t.vcTarget = s.vcTarget
  vcOf : t.vcOf = s.vcOf
  ranks : Ranks (topsOf t.ckpts)
  ranked : Ranked (topsOf t.ckpts) t
  settling : Settling t

theorem Counting.topsOf (h : Counting V vc vclc s s.ckpts.length t) :
    topsOf t.ckpts = s.ckpts.map fun c => (c.n, raised vc vclc c) := by
  refine List.ext_getElem? fun k => ?_
  rw [NVInfo.topsOf, List.getElem?_map, List.getElem?_map]
  cases hk : t.ckpts[k]? with
  | none =>
    have hlen := h.length
    have hge := List.getElem?_eq_none_iff.1 hk
    rw [List.getElem?_eq_none (by omega)]
    rfl
  | some c' =>
    obtain ⟨c, hc, hn, hmax⟩ := h.ckpts k c' hk
    have hlt := (List.getElem?_eq_some_iff.1 hc).1
    rw [if_neg (by omega)] at hmax
    rw [hc, Option.map_some, Option.map_some, hn, hmax]

theorem Counting.rest (h : Counting V vc vclc s s.ckpts.length t)
    (hr : Ranks (NVInfo.topsOf s.ckpts)) : Rest s t where
  v := h.v
  vcs := h.vcs
  vcOf := h.vcOf
  ranks := h.topsOf ▸ hr.raised vc vclc
  ranked := h.topsOf ▸ h.ranked
  settling := h.settling

/-- The new candidate has its place among the others. -/
theorem Ranks.add (hr : Ranks (topsOf s.ckpts)) (hls : vc.ls ≤ vc.maxSeqno) {m : Int}
    (hm : m = (s.ckpts.filter fun cur => cur.n < vc.ls).foldl
      (fun m cur => if m < cur.maxSeqno then cur.maxSeqno else m) vc.maxSeqno) :
    Ranks ((s.ckpts.map fun c => (c.n, NVInfo.raised vc vclc c)) ++ [(vc.ls, m)]) := by
  obtain ⟨h1, h2, h3⟩ := foldl_maxSeqno (s.ckpts.filter fun cur => cur.n < vc.ls) vc.maxSeqno
  rw [← hm] at h1 h2 h3
  have hr' := hr.raised vc vclc
  have hsplit : ∀ e ∈ (s.ckpts.map fun c => (c.n, NVInfo.raised vc vclc c)) ++ [(vc.ls, m)],
      (∃ c ∈ s.ckpts, (c.n, NVInfo.raised vc vclc c) = e) ∨ e = (vc.ls, m) := by
    intro e he
    exact (List.mem_append.1 he).imp List.mem_map.1 List.mem_singleton.1
  constructor
  · intro e he
    rcases hsplit e he with ⟨c, hc, rfl⟩ | rfl
    · exact hr'.le _ (List.mem_map.2 ⟨c, hc, rfl⟩)
    · exact hls.trans h1
  · intro e he e' he' hlt
    rcases hsplit e he with ⟨c, hc, rfl⟩ | rfl
    · rcases hsplit e' he' with ⟨c', hc', rfl⟩ | rfl
      · exact hr'.mono _ (List.mem_map.2 ⟨c, hc, rfl⟩) _ (List.mem_map.2 ⟨c', hc', rfl⟩) hlt
      · -- a candidate below `vc` is not raised
        have hlt : c.n < vc.ls := hlt
        have hneg : ¬((c.n = vc.ls ∧ c.d = vclc) ∨ vc.ls < c.n) := by omega
        show NVInfo.raised vc vclc c ≤ m
        rw [raised_neg hneg]
        exact h2 c (List.mem_filter.2 ⟨hc, decide_eq_true hlt⟩)
    · rcases hsplit e' he' with ⟨c', hc', rfl⟩ | rfl
      · -- one above it is raised, and the lower ones are below it anyway
        have hlt : vc.ls < c'.n := hlt
        have hle : vc.maxSeqno ≤ NVInfo.raised vc vclc c' := by
          rw [raised_pos (.inr hlt)]
          split <;> omega
        refine h3 _ hle fun c hc => ?_
        obtain ⟨hc, hcn⟩ := List.mem_filter.1 hc
        have hcn : c.n < vc.ls := of_decide_eq_true hcn
        have hmono : c.maxSeqno ≤ c'.maxSeqno :=
          hr.mono _ (mem_topsOf.2 ⟨c, hc, rfl⟩) _ (mem_topsOf.2 ⟨c', hc', rfl⟩) (hcn.trans hlt)
        exact hmono.trans (le_raised vc vclc c')
      · exact absurd hlt (lt_irrefl _)

theorem includedVCs_countP (q : ViewChange → Bool) : (includedVCs cfg s cfg.n).countP q =
    (List.range cfg.n).countP fun j => s.inNewView cfg j && (s.vcOf j).any q :=
  countP_order (List.nodup_range.filter _)
    (fun j => by rw [List.mem_filter, List.mem_range, and_comm]) q

theorem ckptProofs_isSome {n : Int} (d : Digest) (h : ((List.range V.cfg.n).all fun j =>
      !s.inNewView V.cfg j || (s.vcOf j).any fun m => (m.ckpt V.cfg.P n).isSome) = true) :
    ∃ k, ckptProofs V s n d = some k := by
  have hfold : ∀ (l : List Nat) (a : Nat), (∀ j ∈ l, (!s.inNewView V.cfg j ||
      (s.vcOf j).any fun m => (m.ckpt V.cfg.P n).isSome) = true) →
      ∃ k, l.foldlM (fun k i =>
        if s.inNewView V.cfg i then do
          let c ← (← s.vcOf i).ckpt V.cfg.P n
          some (if c = some d then k + 1 else k)
        else some k) a = some k := by
    intro l
    induction l with
    | nil => exact fun a _ => ⟨a, rfl⟩
    | cons i l ih =>
      intro a hl
      have hi := hl i List.mem_cons_self
      simp only [List.foldlM_cons, Option.bind_eq_bind]
      split
      · rename_i hin
        rw [hin, Bool.not_true, Bool.false_or] at hi
        obtain ⟨m, hm, hi⟩ := (Option.any_eq_true _ _).1 hi
        obtain ⟨c, hc⟩ := Option.isSome_iff_exists.1 hi
        rw [hm, Option.bind_some, hc, Option.bind_some, Option.bind_some]
        exact ih _ fun j hj => hl j (List.mem_cons_of_mem _ hj)
      · exact ih _ fun j hj => hl j (List.mem_cons_of_mem _ hj)
  exact hfold _ 0 (List.all_eq_true.1 h)

/-- The candidates have been gone through. -/
structure Chosen (V : NVEnv) (vc : ViewChange) (vclc : Digest) (s t : NVInfo) : Prop
    extends Rest s t where
  progress : Progress V s (chosenBefore (candidates V vc vclc s)
    (candidates V vc vclc s).length) t

/-- The candidate that `vc` brings. -/
theorem addCkpt_ensures (h : Counting V vc vclc s s.ckpts.length t)
    (hr : Ranks (NVInfo.topsOf s.ckpts)) (hfiled : ∀ j m, s.vcOf j = some m → m.id = j)
    (hcs : candidates V vc vclc s =
      s.ckpts.map (Candidate.ofCkpt V vc vclc) ++ [Candidate.ofVC V vc vclc s])
    (hf : candidateFits V s (chosenBefore (candidates V vc vclc s) s.ckpts.length)
      (Candidate.ofVC V vc vclc s) = true) :
    Ensures (addCkpt V vc vclc s.ckpts) t (fun _ u => Chosen V vc vclc s u)
      fun u => pnvCalls u.calls = 0 := by
  have hget : (candidates V vc vclc s)[s.ckpts.length]? = some (Candidate.ofVC V vc vclc s) := by
    rw [hcs, List.getElem?_append_right (by simp), List.length_map, Nat.sub_self]
    rfl
  have hlen : (candidates V vc vclc s).length = s.ckpts.length + 1 := by simp [hcs]
  have hnext := chosenBefore_succ hget
  have hls : vc.ls ≤ vc.maxSeqno := by
    rw [ViewChange.maxSeqno]
    omega
  refine Reaches.get_bind ?_
  have hgo : ∀ {nProofs : Nat}, ckptProofs V t vc.ls vclc = some nProofs → ∀ ns : CkptSum,
      ns.n = vc.ls → ns.maxSeqno = (Candidate.ofVC V vc vclc s).top → ns.nProofs = nProofs →
      ns.nLe = (s.ckpts.filter fun cur => cur.n < vc.ls).length + 1 →
      Ensures (do
        modify fun s => { s with ckpts := s.ckpts ++ [ns] }
        when (V.cfg.f + 1 ≤ ns.nProofs && V.cfg.nf ≤ ns.nLe) (chooseCkpt V t.ckpts.length)) t
        (fun _ u => Chosen V vc vclc s u) fun u => pnvCalls u.calls = 0 := by
    intro nProofs hproofs ns hn hmax hnp hnl
    have htops : NVInfo.topsOf (t.ckpts ++ [ns]) =
        (s.ckpts.map fun c => (c.n, raised vc vclc c)) ++ [(vc.ls, ns.maxSeqno)] := by
      rw [NVInfo.topsOf, List.map_append, ← h.topsOf, ← hn]
      rfl
    have hranks : Ranks (NVInfo.topsOf (t.ckpts ++ [ns])) := by
      rw [htops]
      exact hr.add hls hmax
    have hlast : (t.ckpts ++ [ns])[t.ckpts.length]? = some ns := List.getElem?_concat_length
    have hranked :
      Ranked (NVInfo.topsOf (t.ckpts ++ [ns])) { t with ckpts := t.ckpts ++ [ns] } := by
      refine ⟨fun k c hk => ⟨c.maxSeqno, topsOf_getElem hk⟩, fun k hk => ?_⟩
      obtain ⟨m, hm, hrest⟩ := h.ranked.chosen k hk
      refine ⟨m, ?_, hrest⟩
      rw [htops, List.getElem?_append_left (List.getElem?_eq_some_iff.1 hm).1]
      exact hm
    have hsup : (decide (V.cfg.f + 1 ≤ ns.nProofs) && decide (V.cfg.nf ≤ ns.nLe)) =
        (Candidate.ofVC V vc vclc s).supported := by
      rw [hnp, hnl, ckptProofs_eq hproofs, h.named, h.vcOf, ← includedVCs_countP]
      rfl
    refine Reaches.modify_bind trivial (Reaches.when (fun hsupp => ?_) fun hno => ?_)
    · rw [hsup] at hsupp
      obtain ⟨hw, hchoice⟩ := h.chooses hf hsupp
      rw [hsupp, if_pos rfl] at hnext
      refine Reaches.mono (chooseCkpt_ensures (c := Candidate.ofVC V vc vclc s) (hw.ckpts _)
        (h.progress.ckpts _) hranks hranked hlast
        (by rw [topsOf_getElem hlast, hn, hmax]; rfl) ⟨hn, hmax⟩ hfiled hchoice) fun _ u hu => ?_
      obtain ⟨ho, hk, hch, hu, hp⟩ := hu
      simp only [outer, Outer.mk.injEq] at ho
      obtain ⟨hv, hck, hcur, htarget, hof, -⟩ := ho
      refine ⟨⟨hv.trans h.v, ⟨hcur.trans h.vcs.1, htarget.trans h.vcs.2⟩, hof.trans h.vcOf, ?_, ?_,
        hu.imp id fun he => ⟨he, hch⟩⟩, hlen ▸ hnext ▸ hp⟩
      · rw [hck]
        exact hranks
      · rw [hck]
        exact hk
    · rw [hsup] at hno
      rw [hno, if_neg Bool.false_ne_true, List.append_nil] at hnext
      exact ⟨⟨h.v, h.vcs, h.vcOf, hranks, hranked, h.settling.ckpts _⟩,
        hlen ▸ hnext ▸ h.progress.ckpts _⟩
  rcases h.settling with hw | ⟨he, hch⟩
  · exact Reaches.ofOption_bind hw.quiet fun nProofs hp => hgo hp _ rfl rfl rfl rfl
  · have hread := (h.progress.still he hch hf).2
    obtain ⟨nProofs, hp⟩ := ckptProofs_isSome (V := V) (s := t) (n := vc.ls) vclc
      (by rw [h.named, h.vcOf]; exact hread)
    exact Reaches.some_bind hp (hgo hp _ rfl rfl rfl rfl)

/-- The candidate of the view-change itself, unless there is one. -/
theorem newCkpt_ensures (h : Counting V vc vclc s s.ckpts.length t)
    (hr : Ranks (NVInfo.topsOf s.ckpts)) (hfiled : ∀ j m, s.vcOf j = some m → m.id = j)
    (hf : ∀ k c, (candidates V vc vclc s)[k]? = some c →
      candidateFits V s (chosenBefore (candidates V vc vclc s) k) c = true) :
    Ensures (when (!(s.ckpts.any fun cur => cur.n == vc.ls && cur.d == vclc) &&
          !vclc.isZero) (addCkpt V vc vclc s.ckpts)) t
      (fun _ u => Chosen V vc vclc s u) fun u => pnvCalls u.calls = 0 := by
  refine Reaches.when (fun hnew => ?_) fun hno => ?_
  · have hcond : (s.ckpts.any (isOwn vc vclc) || vclc.isZero) = false := by
      rw [← Bool.not_or, Bool.not_eq_true'] at hnew
      exact hnew
    have hcs : candidates V vc vclc s =
        s.ckpts.map (Candidate.ofCkpt V vc vclc) ++ [Candidate.ofVC V vc vclc s] := by
      rw [candidates, if_neg (by simp [hcond])]
    refine addCkpt_ensures h hr hfiled hcs (hf _ _ ?_)
    rw [hcs, List.getElem?_append_right (by simp), List.length_map, Nat.sub_self]
    rfl
  · have hcond : (s.ckpts.any (isOwn vc vclc) || vclc.isZero) = true := by
      rw [← Bool.not_or, Bool.not_eq_false'] at hno
      exact hno
    have hlen : (candidates V vc vclc s).length = s.ckpts.length := by
      rw [candidates, if_pos hcond, List.append_nil, List.length_map]
    exact ⟨h.rest hr, hlen ▸ h.progress⟩

/-- The requests of `vc` arrive in time, where a checkpoint was chosen before. -/
theorem Chosen.timely (h : Chosen V vc vclc s t) (hs : s.chosenCkpt.isSome = true)
    (hf : requestsFit V vc s (chosenBefore (candidates V vc vclc s)
      (candidates V vc vclc s).length) = true) :
    Timely V (summedVCs V.cfg s) vc t := by
  obtain ⟨-, hapart⟩ := h.progress.kept hs
  rw [requestsFit, hs, h.progress.window (h.progress.chosen hs), Bool.not_true, Bool.false_or,
    Option.all_some] at hf
  have hdone : t.done = s.done := funext fun i => (hapart i).done
  have hrow : t.rowOf = s.rowOf := funext fun i => (hapart i).rowOf
  have hset : (fun k => settledWith V k t (summedVCs V.cfg s) vc) =
      fun k => settledWith V k s (summedVCs V.cfg s) vc :=
    funext fun k => (hapart k).settledWith _ _
  intro i h1 h2
  have hi := List.all_eq_true.1 hf i (mem_intRange.2 ⟨by omega, h2⟩)
  rw [hdone, hrow, hset]
  simpa using hi

theorem heard_summed {t : NVInfo} (hvcs : t.vcs = s.vcs) :
    Heard V (summedVCs V.cfg s) t := by
  have hself : Heard V (summedVCs V.cfg s) s := fun i r =>
    (countP_order (List.nodup_range.filter _)
      (fun j => by rw [List.mem_filter, List.mem_range, and_comm]) _).ge
  exact hself.of_vcs hvcs

/-- The requests of a view-change, where a checkpoint is chosen. -/
theorem Rest.summarizeReqs (h : Rest s t) (hc : t.chosenCkpt.isSome = true)
    (hopen : t.isComplete = false) (hid : vc.id < V.cfg.n) (hvc : s.vcOf vc.id = some vc)
    {W : List ViewChange} (hW : Heard V W t) (hf : Timely V W vc t) :
    Ensures (NVInfo.summarizeReqs V vc) t (fun _ u => Rest s u) fun u => pnvCalls u.calls = 0 := by
  have hw : Waiting t := h.settling.resolve_right fun ⟨he, _⟩ => by simp [he.complete] at hopen
  refine Reaches.mono (summarizeReqs_ensures (hw.live hc) hid (h.vcOf ▸ hvc) hW hf)
    fun _ u ⟨hsum, _, hu⟩ => ?_
  have hx := hsum.fixed
  have ho := outer_of_fixed hx
  simp only [outer, Outer.mk.injEq] at ho
  obtain ⟨hv, hck, hcur, htarget, hof, -⟩ := ho
  have hch : u.chosenCkpt.isSome = true := by
    rw [show u.chosenCkpt = t.chosenCkpt from congrArg Fixed.chosenCkpt hx]
    exact hc
  have hranked : Ranked (NVInfo.topsOf t.ckpts) u := h.ranked.of_fixed hx
  refine ⟨hv.trans h.v, ⟨hcur.trans h.vcs.1, htarget.trans h.vcs.2⟩, hof.trans h.vcOf,
    by rw [hck]; exact h.ranks, by rw [hck]; exact hranked, ?_⟩
  refine hu.imp (fun hl => ⟨hl.toOpen, fun hn => ?_, fun _ => hl.tight ?_⟩) fun he => ⟨he, hch⟩
  · rw [hn] at hch
    cases hch
  · -- there was a request to come, so there are requests
    obtain ⟨k, hk⟩ := Option.isSome_iff_exists.1 hc
    obtain ⟨m, -, -, hspan, -⟩ := h.ranked.chosen k hk
    have hle := doneCount_le t
    have hcount := hw.count
    have htight := hw.tight hc
    rw [min_of_fixed hx, max_of_fixed hx]
    omega

/-- **`summarize`** -/
theorem summarize_ensures (hw : Waiting s) (hr : Ranks (NVInfo.topsOf s.ckpts))
    (hk : Ranked (NVInfo.topsOf s.ckpts) s) (hfiled : ∀ j m, s.vcOf j = some m → m.id = j)
    (hid : vc.id < V.cfg.n) (hvc : s.vcOf vc.id = some vc) (hf : summarizeFits V vc s = true) :
    Ensures (summarize V vc) s (fun _ t => Rest s t) fun t => pnvCalls t.calls = 0 := by
  refine Reaches.get_bind (Reaches.assert_bind hw.quiet
    fun _ => Reaches.ofOption_bind hw.quiet fun c hc => ?_)
  rw [summarizeFits, hc] at hf
  obtain ⟨hall, hreqs⟩ := Bool.and_eq_true_iff.1 hf
  have hfits : ∀ k b, (candidates V vc (c.getD 0) s)[k]? = some b →
      candidateFits V s (chosenBefore (candidates V vc (c.getD 0) s) k) b = true := by
    intro k b hb
    have hlt := (List.getElem?_eq_some_iff.1 hb).1
    have hk := List.all_eq_true.1 hall k (List.mem_range.2 hlt)
    rwa [hb, Option.all_some] at hk
  refine Ensures.bind (sumCkpts_ensures hw hr hk hfiled hfits) fun _ t ht => ?_
  refine Ensures.bind (newCkpt_ensures ht hr hfiled hfits)
    fun _ u hu => Reaches.get_bind (Reaches.when (fun hc => ?_) fun _ => hu.toRest)
  obtain ⟨hch, hopen⟩ := Bool.and_eq_true_iff.1 hc
  have hopen : u.isComplete = false := by simpa using hopen
  refine Ensures.bind (hu.summarizeReqs (hu.progress.chosen hch) hopen hid hvc
    (heard_summed (hu.progress.kept hch).1) (hu.timely hch hreqs))
    fun _ w hrest => Reaches.modify trivial ?_
  refine ⟨hrest.v, hrest.vcs, hrest.vcOf, hrest.ranks,
    ⟨hrest.ranked.keys, hrest.ranked.chosen⟩, hrest.settling.imp ?_ ?_⟩
  · exact fun hw => ⟨⟨hw.isOpen, (pnvCalls_status _).trans hw.quiet, hw.count⟩, hw.blank, hw.tight⟩
  · exact fun ⟨he, hch⟩ =>
      ⟨⟨he.complete, (pnvCalls_status _).trans he.called, he.count, he.full⟩, hch⟩

theorem addToNewView_ensures (hw : Waiting s) (hr : Ranks (NVInfo.topsOf s.ckpts))
    (hk : Ranked (NVInfo.topsOf s.ckpts) s) (hfiled : ∀ j m, s.vcOf j = some m → m.id = j)
    (hid : vc.id < V.cfg.n) (hvc : s.vcOf vc.id = some vc) (hf : includeFits V vc s = true) :
    Ensures (addToNewView V vc) s (fun _ t => Rest s t) fun t => pnvCalls t.calls = 0 := by
  refine Reaches.get_bind (Reaches.ofOption_bind hw.quiet
    fun nv hnv => Reaches.modify_bind trivial ?_)
  rw [includeFits, hnv] at hf
  have hw' : Waiting { s with nv := some nv } :=
    ⟨⟨hw.isOpen, hw.quiet, hw.count⟩, hw.blank, hw.tight⟩
  refine Reaches.mono (summarize_ensures hw' hr ⟨hk.keys, hk.chosen⟩ hfiled hid hvc hf)
    fun _ t ht => ?_
  exact ⟨ht.v, ht.vcs, ht.vcOf, ht.ranks, ht.ranked, ht.settling⟩

end Summarize

/-! ## The backup -/

/-- The sequence numbers from `i` on are open: `check_new_view` has not come to them. -/
def Untouched (i : Int) (s : NVInfo) : Prop := ∀ k, i ≤ k → s.done k = false

theorem Untouched.move {i : Int} (h : Untouched i s) (hm : Moved i s t) : Untouched (i + 1) t := by
  intro k hk
  rw [done, hm.comp k (by omega)]
  exact h k (by omega)

/-- While later requests are open, the new view does not end. -/
theorem Ended.last {i : Int} (h : Ended t) (hu : Untouched (i + 1) t) (hi : t.min < i ∧ i < t.max) :
    t.max ≤ i + 1 := by
  by_contra hlt
  have hall := (all_done_iff (s := t) (by omega)).2 (h.count ▸ h.full)
  have hopen := hu (i + 1) le_rfl
  rw [hall (i + 1) (by omega) (by omega)] at hopen
  cases hopen

theorem checkReq_ensures (h : Live s) {i : Int} (hi : s.min < i ∧ i < s.max) (hu : Untouched i s) :
    Ensures (checkReq V i) s
      (fun b t => t.fixed = s.fixed ∧
        if b then Live t else Live t ∧ Untouched (i + 1) t ∨ Ended t ∧ s.max ≤ i + 1)
      fun t => pnvCalls t.calls = 0 := by
  refine Reaches.get_bind (Reaches.ofOption_bind h.quiet
    fun vc _ => Reaches.ite (fun _ => Reaches.pure ⟨rfl, h⟩) fun _ => ?_)
  refine Reaches.ofOption_bind h.quiet fun k hk => Reaches.ofOption_bind h.quiet
    fun q _ => Reaches.ofOption_bind h.quiet fun cur _ => ?_
  set s1 : NVInfo := { s with reqs := s.reqs.modify k fun r => r ++ [cur] } with hs1
  have hfixed : s1.fixed = s.fixed := push_fixed k cur s
  have h1 : Live s1 := h.of_slots (push_slots k cur s) rfl rfl
  have hm1 : Moved i s s1 :=
    push_moved hk (List.getElem?_eq_getElem (row_eq hk).2.2) cur
  refine Reaches.modify_bind trivial (Reaches.ite (fun _ => ?_) fun _ => Reaches.pure ⟨hfixed, h1⟩)
  refine Ensures.bind (checkComp_ensures h1 hi 0)
    fun _ t ⟨hm, _, _, ht⟩ => Reaches.pure ⟨hm.fixed.trans hfixed, ?_⟩
  have hmove := hm1.trans hm
  have hut := hu.move hmove
  rcases ht with ht | ⟨ht, -⟩
  · exact .inl ⟨ht, hut⟩
  · refine .inr ⟨ht, ?_⟩
    have hlast := ht.last hut (hmove.range hi)
    rw [max_of_fixed hmove.fixed] at hlast
    exact hlast

/-- A backup has checked the new-view message. -/
structure Verified (s t : NVInfo) : Prop where
  outer : t.outer = s.outer
  settling : Settling t
  span : t.chosenCkpt.isSome = true → t.min < t.max

theorem Verified.of_fixed (hch : s.chosenCkpt.isSome = true) (hlt : s.min + 1 < s.max)
    (hx : t.outer = s.outer ∧ t.chosenCkpt = s.chosenCkpt ∧ t.min = s.min ∧ t.max = s.max)
    (ht : Live t ∨ Ended t) : Verified s t := by
  obtain ⟨ho, hc, hmin, hmax⟩ := hx
  have hch' : t.chosenCkpt.isSome = true := by rw [hc]; exact hch
  refine ⟨ho, ht.imp (fun hl => ⟨hl.toOpen, fun hn => ?_, fun _ => hl.tight ?_⟩)
    fun he => ⟨he, hch'⟩, fun _ => ?_⟩
  · rw [hn] at hch'
    cases hch'
  · omega
  · omega

theorem checkReqs_ensures {nv : NewView} (h : s.isComplete = false) (hq : pnvCalls s.calls = 0)
    (hz : s.nComplete = 0) (hch : s.chosenCkpt.isSome = true) (hbase : s.base = s.min + 1)
    (hmax : s.max = nv.max) (hlt : s.min + 1 < s.max) :
    Ensures (checkReqs V nv) s (fun _ t => Verified s t) fun t => pnvCalls t.calls = 0 := by
  refine Reaches.modify_bind trivial (Reaches.get_bind ?_)
  set s1 : NVInfo := { s with
    reqs := s.reqs ++ List.replicate (s.max - s.min - 1).toNat []
    compReqs := List.replicate (s.compReqs.length + (s.max - s.min - 1).toNat) none } with hs1
  have hnone : ∀ o ∈ s1.compReqs, o = none := fun o ho => List.eq_of_mem_replicate ho
  have h1 : Live s1 := by
    refine ⟨⟨h, hq, ?_⟩, fun _ => ?_⟩
    · rw [doneCount_unmarked hnone]
      exact hz
    · have hz1 : s1.nComplete = 0 := hz
      have hspan : s1.max - s1.min - 1 = s.max - s.min - 1 := rfl
      omega
  have hu : Untouched (s.min + 1) s1 := fun k _ => done_unmarked hnone k
  let I (is : List Int) (t : NVInfo) : Prop := t.fixed = s1.fixed ∧
    ∃ lo, s.min < lo ∧ is = intRange lo s.max ∧ (Live t ∧ Untouched lo t ∨ Ended t ∧ is = [])
  refine Ensures.bind (Reaches.eachUntil (I := I) (E := fun t => t.fixed = s1.fixed ∧ Live t)
    ?_ _ s1 ?_) fun b t ht => Reaches.pure ?_
  · rintro i is t ⟨hx, lo, hlo, his, ht⟩
    replace ht : Live t ∧ Untouched lo t := ht.resolve_right fun hend => by cases hend.2
    obtain ⟨rfl, rfl, hlt⟩ := intRange_eq_cons his
    have hmin' : t.min = s.min := min_of_fixed (s := s1) hx
    have hmax' : t.max = s.max := max_of_fixed (s := s1) hx
    refine Reaches.mono (checkReq_ensures ht.1 (by omega) ht.2) fun b u hreq => ?_
    obtain ⟨hu, hb⟩ := hreq
    cases b with
    | true => exact ⟨hu.trans hx, hb⟩
    | false =>
      refine ⟨hu.trans hx, i + 1, by omega, rfl, hb.imp id fun hend => ⟨hend.1, intRange_nil ?_⟩⟩
      have hlast := hend.2
      omega
  · refine ⟨rfl, s.min + 1, by omega, ?_, .inl ⟨h1, hu⟩⟩
    show intRange s.base nv.max = _
    rw [hbase, hmax]
  · have hfixed : ∀ {t : NVInfo}, t.fixed = s1.fixed →
      t.outer = s.outer ∧ t.chosenCkpt = s.chosenCkpt ∧ t.min = s.min ∧ t.max = s.max :=
      fun hx => ⟨outer_of_fixed (s := s1) hx, congrArg Fixed.chosenCkpt hx,
        min_of_fixed (s := s1) hx, max_of_fixed (s := s1) hx⟩
    cases b with
    | true => exact .of_fixed hch hlt (hfixed ht.1) (.inl ht.2)
    | false =>
      obtain ⟨hx, lo, -, -, ht⟩ := ht
      exact .of_fixed hch hlt (hfixed hx) (ht.imp And.left And.left)

theorem checkNone_ensures {d : Digest} {nv : NewView} (hw : Open s) (hz : s.nComplete = 0)
    (hch : s.chosenCkpt.isSome = true) (hmax : s.max = s.min + 1) :
    Ensures (checkNone V d nv) s (fun _ t => Verified s t) fun t => pnvCalls t.calls = 0 := by
  refine Reaches.modify_bind trivial
    (Reaches.get_bind (Reaches.ofOption_bind hw.quiet fun ks _ => ?_))
  refine Reaches.modify_bind trivial
    (Reaches.pure ⟨rfl, .inr ⟨⟨rfl, ?_, hw.count, ?_⟩, hch⟩, fun _ => ?_⟩)
  · exact (pnvCalls_pnv _ _ _ _ _).trans (congrArg (· + 1) hw.quiet)
  · show s.nComplete = s.max - s.min - 1
    omega
  · show s.min < s.max
    omega

theorem Waiting.verified (h : Waiting s) (hn : s.chosenCkpt = none) (ho : s.outer = t.outer) :
    Verified t s :=
  ⟨ho, .inl h, fun hc => by simp [hn] at hc⟩

theorem belowMax_eq (max : Int) :
    belowMax V s max = holders V s fun m => decide (m.maxSeqno < max) := by
  refine List.countP_congr fun j _ => ?_
  cases s.vcOf j <;> simp

/-- **`check_new_view`** -/
theorem checkNewView_ensures (hw : Waiting s) (hn : s.chosenCkpt = none)
    (hfiled : ∀ j m, s.vcOf j = some m → m.id = j ∧ j < V.cfg.n) (hf : maxFits V s = true) :
    Ensures (checkNewView V) s (fun _ t => Verified s t) fun t => pnvCalls t.calls = 0 := by
  obtain ⟨hz, hreqs, hcomps, -⟩ := hw.blank hn
  -- without marks nothing is complete, whatever `min` and `max` are
  have hcount : ∀ {u : NVInfo}, u.compReqs = s.compReqs →
    u.nComplete = s.nComplete → u.nComplete = u.doneCount := by
    intro u hc hn
    rw [doneCount_unmarked (by rw [hc, hcomps]; exact nofun), hn, hz]
    rfl
  refine Reaches.get_bind (Reaches.assert_bind hw.quiet
    fun _ => Reaches.ofOption_bind hw.quiet fun nv hnv => ?_)
  refine Reaches.ofOption_bind hw.quiet fun cid hcid =>
    Reaches.ofOption_bind hw.quiet fun vc hvc => Reaches.modify_bind trivial ?_
  have hw1 : Waiting { s with min := vc.ls } :=
    ⟨⟨hw.isOpen, hw.quiet, hcount rfl rfl⟩, hw.blank, fun hc => by simp [hn] at hc⟩
  refine Reaches.ite (fun _ => Reaches.pure (hw1.verified hn rfl))
    fun hls => Reaches.modify_bind trivial ?_
  have hw2 : Waiting { s with min := vc.ls, base := vc.ls + 1 } :=
    ⟨⟨hw.isOpen, hw.quiet, hcount rfl rfl⟩, hw.blank, fun hc => by simp [hn] at hc⟩
  refine Reaches.ofOption_bind hw.quiet fun c hc => ?_
  cases c with
  | none => exact Reaches.pure (hw2.verified hn rfl)
  | some d =>
    refine Reaches.get_bind (Reaches.ofOption_bind hw.quiet fun k hk => ?_)
    obtain ⟨nProofs, nLe⟩ := k
    refine Reaches.ite (fun _ => Reaches.pure (hw2.verified hn rfl))
      fun hproofs => Reaches.modify_bind trivial ?_
    -- the checkpoint is accepted, so `max` is, and it is above the checkpoint
    have hls : vc.ls = nv.min := not_not.1 hls
    have hspan : vc.ls < nv.max := by
      rw [NewView.whichPicked, Option.ite_none_right_eq_some] at hcid
      omega
    have hbelow : V.cfg.nf ≤ belowMax V s nv.max := by
      have hk : ckptEvidence V { s with min := vc.ls } cid.toNat d = some (nProofs, nLe) := hk
      have hge : V.cfg.f + 1 ≤ nProofs ∧ V.cfg.nf ≤ nLe := by
        simp only [Bool.or_eq_true, decide_eq_true_eq, not_or, not_lt] at hproofs
        exact hproofs
      have hvc : s.pickedVC nv.min = some vc := hvc
      have hc : vc.ckpt V.cfg.P vc.ls = some (some d) := hc
      have hof : s.vcOf cid.toNat = some vc := by
        simp only [pickedVC, hnv, hcid, Option.bind_eq_bind, Option.bind_some] at hvc
        split at hvc
        · exact hvc
        · cases hvc
      have hlt := (hfiled _ _ hof).2
      have h1 : nProofs ≤ holders V s (hasCkpt V.cfg.P nv.min d) :=
        hls ▸ ckptEvidence_proofs (s := { s with min := vc.ls }) hof hc hlt hk
      have h2 : nLe ≤ holders V s fun m => decide (m.ls ≤ nv.min) :=
        hls ▸ ckptEvidence_le (s := { s with min := vc.ls }) hof le_rfl hlt hk
      have haccept : acceptsCkpt V nv s = true := by
        rw [acceptsCkpt, hvc, Option.any_some, decide_eq_true hls, Bool.true_and, ← hls, hc,
          Option.any_some, Option.any_some, Bool.and_eq_true, hls]
        exact ⟨decide_eq_true (by omega), decide_eq_true (by omega)⟩
      rw [maxFits, hnv, Option.all_some, haccept] at hf
      rw [belowMax_eq]
      simpa using hf
    refine Reaches.get_bind (Reaches.ite (fun hlt => ?_)
      fun _ => Reaches.modify_bind trivial (Reaches.ite (fun hbase => ?_) fun hbase => ?_))
    · have hlt : belowMax V s nv.max < V.cfg.nf := hlt
      omega
    · have hbase : vc.ls + 1 = nv.max := hbase
      exact Reaches.mono (checkNone_ensures
        (s := { s with min := vc.ls, base := vc.ls + 1, chosenCkpt := some 0, max := nv.max })
        ⟨hw.isOpen, hw.quiet, hcount rfl rfl⟩ hz rfl hbase.symm)
          fun _ t ht => ⟨ht.outer, ht.settling, ht.span⟩
    · have hbase : ¬vc.ls + 1 = nv.max := hbase
      refine Reaches.mono (checkReqs_ensures
        (s := { s with min := vc.ls, base := vc.ls + 1, chosenCkpt := some 0, max := nv.max })
        hw.isOpen hw.quiet hz rfl rfl rfl ?_) fun _ t ht => ⟨ht.outer, ht.settling, ht.span⟩
      show vc.ls + 1 < nv.max
      omega

/-! ## The operations -/

/-- Between two operations. -/
structure Exact (cfg : Cfg) (id : Nat) (s : NVInfo) : Prop where
  filed : ∀ j m, s.vcOf j = some m → m.id = j ∧ j < cfg.n
  zero : s.v = 0 → s.chosenCkpt = none ∧ s.ckpts = []
  ranks : Ranks (topsOf s.ckpts)
  ranked : cfg.primary s.v = id → Ranked (topsOf s.ckpts) s
  /-- A backup chooses nothing before it has the view-changes. -/
  early : cfg.primary s.v ≠ id → s.vcCur < s.vcTarget → s.chosenCkpt = none
  count : s.nComplete = s.doneCount
  blank : s.chosenCkpt = none → s.isComplete = false ∧ Untold s
  span : s.chosenCkpt.isSome = true → s.min < s.max ∧
    (s.isComplete = true ↔ s.nComplete = s.max - s.min - 1)

/-- An operation calls `process_new_view` if the new view becomes complete. -/
def Outcome (s t : NVInfo) : Prop :=
  (t.v = s.v ∧ (s.isComplete = true → t.isComplete = true) ∧
    pnvCalls t.calls = if t.isComplete && !s.isComplete then 1 else 0) ∨
    t.v ≠ s.v ∧ t.isComplete = false ∧ pnvCalls t.calls = 0

theorem Outcome.refl (hq : pnvCalls s.calls = 0) : Outcome s s := .inl ⟨rfl, id, by simp [hq]⟩

theorem Exact.waiting (h : Exact cfg id s) (ho : s.isComplete = false)
    (hq : pnvCalls s.calls = 0) : Waiting s :=
  ⟨⟨ho, hq, h.count⟩, fun hn => (h.blank hn).2, fun hc => by simpa [ho] using (h.span hc).2⟩

theorem Exact.settled (h : Exact cfg id s) : s.isComplete = true ↔ Settled s := by
  cases hc : s.chosenCkpt.isSome with
  | false =>
    have hb := (h.blank (by simpa using hc)).1
    simp [Settled, hb, hc]
  | true =>
    obtain ⟨hlt, hiff⟩ := h.span hc
    rw [hiff, h.count, Settled, all_done_iff hlt, and_iff_right hc]

/-- After a step of the new view of `s`. -/
theorem Settling.exact (h : Settling t) (hopen : s.isComplete = false) (hv : t.v = s.v)
    (hz : s.v ≠ 0) (hfiled : ∀ j m, t.vcOf j = some m → m.id = j ∧ j < cfg.n)
    (hr : Ranks (topsOf t.ckpts)) (hk : cfg.primary t.v = id → Ranked (topsOf t.ckpts) t)
    (he : cfg.primary t.v ≠ id → t.vcCur < t.vcTarget → t.chosenCkpt = none)
    (hlt : t.chosenCkpt.isSome = true → t.min < t.max) : Exact cfg id t ∧ Outcome s t := by
  have hzero : t.v = 0 → t.chosenCkpt = none ∧ t.ckpts = [] := fun h0 => absurd (hv ▸ h0) hz
  rcases h with hw | ⟨hend, hc⟩
  · refine ⟨⟨hfiled, hzero, hr, hk, he, hw.count, fun hn => ⟨hw.isOpen, hw.blank hn⟩,
      fun hc => ⟨hlt hc, ?_⟩⟩, .inl ⟨hv, ?_, ?_⟩⟩
    · simp [hw.isOpen, hw.tight hc]
    · simp [hopen]
    · simp [hw.isOpen, hw.quiet]
  · refine ⟨⟨hfiled, hzero, hr, hk, he, hend.count, fun hn => by simp [hn] at hc,
      fun hc => ⟨hlt hc, ?_⟩⟩, .inl ⟨hv, ?_, ?_⟩⟩
    · simp [hend.complete, hend.full]
    · simp [hend.complete]
    · simp [hend.complete, hend.called, hopen]

/-- After a request was looked at. -/
theorem Exact.move (h : Exact cfg id s) (hopen : s.isComplete = false)
    (hc : s.chosenCkpt.isSome = true) (hlt : s.min + 1 < s.max) (hx : t.fixed = s.fixed)
    (ht : Live t ∨ Ended t) : Exact cfg id t ∧ Outcome s t := by
  have hz : s.v ≠ 0 := fun h0 => by simp [(h.zero h0).1] at hc
  have hx' := hx
  simp only [fixed, Fixed.mk.injEq] at hx
  obtain ⟨hv, hck, hch, hmin, hmax, -, -, hcur, htarget, hof, -⟩ := hx
  have hc' : t.chosenCkpt.isSome = true := by
    rw [hch]
    exact hc
  have hset : Settling t := by
    refine ht.imp (fun hl => ⟨hl.toOpen, fun hn => ?_, fun _ => hl.tight (by omega)⟩)
      fun he => ⟨he, hc'⟩
    rw [hn] at hc'
    cases hc'
  refine hset.exact hopen hv hz (hof ▸ h.filed) (hck ▸ h.ranks) (fun hp => ?_) (fun hp hlt => ?_)
    fun _ => by omega
  · rw [hck]
    exact (h.ranked (hv ▸ hp)).of_fixed hx'
  · rw [hch]
    exact h.early (hv ▸ hp) (by omega)

section Operations

variable (h : Exact V.cfg V.id s) (hq : pnvCalls s.calls = 0)

include h hq

theorem addNewView_exact (m : NewView) :
    Ensures (NVInfo.addNewView V m) s (fun _ t => Exact V.cfg V.id t ∧ Outcome s t)
      fun t => pnvCalls t.calls = 0 := by
  refine Reaches.get_bind (Reaches.ite (fun _ => Reaches.pure ⟨h, .refl hq⟩) fun hlt => ?_)
  have hlt : s.v < m.v := by
    have hlt : ¬m.v ≤ s.v := hlt
    omega
  -- what is left has no candidate
  let B (u : NVInfo) : Prop :=
    u.chosenCkpt = none ∧ u.ckpts = [] ∧ u.isComplete = false ∧ Untold u ∧
      (∀ j m, u.vcOf j = some m → m.id = j ∧ j < V.cfg.n) ∧ pnvCalls u.calls = 0
  refine Ensures.bind (Q := fun _ u => B u) (Reaches.when (fun _ => ?_) fun hz => ?_)
    fun _ u hu => ?_
  · exact Reaches.modify trivial
      ⟨rfl, rfl, rfl, ⟨rfl, rfl, rfl, fun _ => rfl⟩, (by rintro j m ⟨⟩), hq⟩
  · obtain ⟨hn, hck⟩ := h.zero (by simpa using hz)
    obtain ⟨hi, hb⟩ := h.blank hn
    exact ⟨hn, hck, hi, hb, h.filed, hq⟩
  · obtain ⟨hn, hck, hi, hb, hfiled, hqu⟩ := hu
    refine Reaches.modify_bind trivial (Reaches.pure ⟨?_, .inr ⟨hlt.ne', hi, hqu⟩⟩)
    refine ⟨hfiled, fun _ => ⟨hn, hck⟩, ?_, fun _ => ⟨fun k c hk => ?_, fun k hk => ?_⟩,
      fun _ _ => hn, ?_, fun _ => ⟨hi, hb⟩, fun hc => ?_⟩
    · show Ranks (topsOf u.ckpts)
      rw [hck]
      exact ⟨nofun, nofun⟩
    · have hk : u.ckpts[k]? = some c := hk
      simp [hck] at hk
    · have hk : u.chosenCkpt = some k := hk
      simp [hn] at hk
    · rw [doneCount_unmarked fun o ho => ?_]
      · exact hb.1
      · have ho : o ∈ u.compReqs := ho
        simp [hb.2.2.1] at ho
    · have hc : u.chosenCkpt.isSome = true := hc
      simp [hn] at hc

/-- The view-change of `m`, or the acknowledgement of one, is put down. -/
structure Noted (cfg : Cfg) (vcs : Nat → VCInfo) (s : NVInfo) : Prop where
  filed : ∀ j m, (vcs j).vc = some m → m.id = j ∧ j < cfg.n
  reqSum : ∀ j, (vcs j).reqSum = (s.vcs j).reqSum

omit h hq in
theorem Untold.noted {vcs : Nat → VCInfo} {k : Nat} (hu : Untold s) (hn : Noted V.cfg vcs s) :
    Untold { s with vcs, vcCur := k } :=
  ⟨hu.1, hu.2.1, hu.2.2.1, fun j => (hn.reqSum j).trans (hu.2.2.2 j)⟩

/-- A view-change is included in the new-view message. -/
theorem Exact.addToNewView_exact (hopen : s.isComplete = false) (hp : V.cfg.primary s.v = V.id)
    (hz : s.v ≠ 0) {vcs : Nat → VCInfo} (hn : Noted V.cfg vcs s) (k : Nat) {vc : ViewChange}
    (hvc : (vcs vc.id).vc = some vc) (hf : includeFits V vc { s with vcs, vcCur := k } = true) :
    Ensures (addToNewView V vc) { s with vcs, vcCur := k }
      (fun _ t => Exact V.cfg V.id t ∧ Outcome s t) fun t => pnvCalls t.calls = 0 := by
  have hw := h.waiting hopen hq
  have hk := h.ranked hp
  refine Reaches.mono (addToNewView_ensures ⟨⟨hopen, hq, hw.count⟩,
    fun hc => (hw.blank hc).noted hn, hw.tight⟩ h.ranks ⟨hk.keys, hk.chosen⟩
    (fun j m hm => (hn.filed j m hm).1) (hn.filed _ _ hvc).2 hvc hf) fun _ t ht => ?_
  have htv : t.v = s.v := ht.v
  refine ht.settling.exact hopen htv hz (ht.vcOf ▸ hn.filed) ht.ranks (fun _ => ht.ranked)
    (fun hne => absurd (htv ▸ hp) hne) fun hc => ?_
  obtain ⟨k, hk⟩ := Option.isSome_iff_exists.1 hc
  obtain ⟨m, -, -, hlt, -⟩ := ht.ranked.chosen k hk
  exact hlt

/-- Fields are changed that the completion does not depend on. -/
theorem Exact.keep (hopen : s.isComplete = false) {vcs : Nat → VCInfo} (hn : Noted V.cfg vcs s)
    (k : Nat) (hk : V.cfg.primary s.v ≠ V.id → k < s.vcTarget → s.chosenCkpt = none) :
    Exact V.cfg V.id { s with vcs, vcCur := k } ∧ Outcome s { s with vcs, vcCur := k } :=
  ⟨⟨hn.filed, h.zero, h.ranks, fun hp => ⟨(h.ranked hp).keys, (h.ranked hp).chosen⟩,
    hk, h.count, fun hc => ⟨(h.blank hc).1, (h.blank hc).2.noted hn⟩, h.span⟩,
    .inl ⟨rfl, fun hc => by simp [hopen] at hc, by simp [hopen, hq]⟩⟩

omit hq in
theorem Exact.noted_store (m : ViewChange) (hid : m.id < V.cfg.n) :
    Noted V.cfg (s.store m).vcs s := by
  refine ⟨fun j vc hvc => ?_, fun j => store_reqSum m j⟩
  have hvc : (s.store m).vcOf j = some vc := hvc
  rw [store_vcOf] at hvc
  split at hvc
  · rename_i hj
    cases hvc
    exact ⟨hj.symm, hj ▸ hid⟩
  · exact h.filed j vc hvc

theorem Exact.stored_exact (hopen : s.isComplete = false) (hz : s.v ≠ 0) (m : ViewChange)
    (hid : m.id < V.cfg.n) (hf : storedFits V m (s.store m) = true) :
    Ensures (stored V m) (s.store m) (fun _ t => Exact V.cfg V.id t ∧ Outcome s t)
      fun t => pnvCalls t.calls = 0 := by
  have hearly : V.cfg.primary s.v ≠ V.id → s.vcCur + 1 ≤ s.vcTarget → s.chosenCkpt = none :=
    fun hp hlt => h.early hp (by omega)
  have hnoted := h.noted_store m hid
  have hkeep := h.keep hq hopen hnoted (s.vcCur + 1) fun hp hlt => hearly hp (by omega)
  refine Reaches.get_bind (Reaches.ite (fun hp => ?_)
    fun hp => Reaches.when (fun hlast => ?_) fun _ => hkeep)
  · rw [storedFits, if_pos hp] at hf
    have hself : ((s.store m).vcs m.id).vc = some m := by simp [NVInfo.store]
    refine Reaches.when (fun hid =>
      h.addToNewView_exact hq hopen (isPrimary_iff.1 hp) hz hnoted _ hself ?_) fun _ => hkeep
    have hid : (m.id != V.id) = false := by simpa using hid
    rw [hid, Bool.false_or] at hf
    exact hf
  · rw [storedFits, if_neg hp] at hf
    have hp' : V.cfg.primary s.v ≠ V.id := fun hp' => hp (isPrimary_iff.2 hp')
    have hlast : s.vcCur + 1 = s.vcTarget := by simpa [NVInfo.store] using hlast
    have hn : s.chosenCkpt = none := hearly hp' hlast.le
    have hfit : maxFits V (s.store m) = true := by simpa [NVInfo.store, hlast] using hf
    have hw := h.waiting hopen hq
    have hws : Waiting (s.store m) :=
      ⟨⟨hopen, hq, hw.count⟩, fun hc => (hw.blank hc).noted hnoted, hw.tight⟩
    refine Ensures.bind (checkNewView_ensures hws hn hnoted.filed hfit)
      fun _ t ht => Reaches.pure ?_
    have ho := ht.outer
    simp only [outer, Outer.mk.injEq] at ho
    obtain ⟨hv, hck, hcur, htarget, hof, -⟩ := ho
    have htv : t.v = s.v := hv
    refine ht.settling.exact hopen htv hz (hof ▸ hnoted.filed) ?_ (fun hp => absurd (htv ▸ hp) hp')
      (fun _ hlt => ?_) ht.span
    · rw [hck]
      exact h.ranks
    · rw [hcur, htarget] at hlt
      exact absurd hlt (by simp [NVInfo.store, hlast])

theorem addViewChange_exact (m : ViewChange) (verified digestOk : Bool) (hpos : m.v = s.v → s.v ≠ 0)
    (hf : stores V m verified digestOk s = true → storedFits V m (s.store m) = true) :
    Ensures (NVInfo.addViewChange V m verified digestOk)
      s (fun _ t => Exact V.cfg V.id t ∧ Outcome s t) fun t => pnvCalls t.calls = 0 := by
  refine Reaches.get_bind (Reaches.assert_bind hq
    fun ha => Reaches.ite (fun _ => Reaches.pure ⟨h, .refl hq⟩) fun hc => ?_)
  obtain ⟨hv, hid⟩ := Bool.and_eq_true_iff.1 ha
  have hz : s.v ≠ 0 := hpos (by simpa using hv)
  simp only [Bool.or_eq_true, not_or, Bool.not_eq_true] at hc
  refine Reaches.ofOption_bind hq fun named hnamed =>
    Reaches.ite (fun _ => Reaches.pure ⟨h, .refl hq⟩) fun hn => ?_
  refine Reaches.ite (fun _ => Reaches.pure ⟨h, .refl hq⟩)
    fun hver => Reaches.modify_bind trivial ?_
  have hnamed : s.isPrimary V = true ∨ s.names V m = some true := by
    have hn : named = true := by simpa using hn
    subst hn
    split at hnamed
    · exact .inl ‹_›
    · exact .inr hnamed
  have hstores : stores V m verified digestOk s = true := by
    have hver : verified = true ∨
      (s.isPrimary V || !digestOk || decide ((s.vcs m.id).ackCount < V.cfg.f)) = false := by
      cases verified with
      | true => exact .inl rfl
      | false => exact .inr (by simpa using hver)
    simp only [stores, hc.2, Option.isNone_iff_eq_none.2 (by simpa using hc.1 : s.vcOf m.id = none),
      Bool.not_false, Bool.true_and,
      Bool.and_eq_true, Bool.or_eq_true, beq_iff_eq, Bool.not_eq_true']
    exact ⟨hnamed, hver⟩
  exact Ensures.bind (h.stored_exact hq hc.2 hz m (of_decide_eq_true hid) (hf hstores))
    fun _ t ht => Reaches.pure ht

/-- An acknowledgement that counts. -/
theorem Exact.countAck_exact (hopen : s.isComplete = false) (hz : s.v ≠ 0) (m : ViewChangeAck)
    (hf : ackFits V m (ackWith m s) = true) :
    Ensures (countAck V m) s (fun _ t => Exact V.cfg V.id t ∧ Outcome s t)
      fun t => pnvCalls t.calls = 0 := by
  have hof : ∀ j, ((ackWith m s).vcs j).vc = s.vcOf j ∧
      ((ackWith m s).vcs j).reqSum = (s.vcs j).reqSum := by
    intro j
    by_cases hj : j = m.vcid
    · subst hj
      simp [ackWith, VCInfo.ack, NVInfo.vcOf]
    · simp [ackWith, NVInfo.vcOf, hj]
  have hnoted : Noted V.cfg (ackWith m s).vcs s :=
    ⟨fun j vc hvc => h.filed j vc ((hof j).1 ▸ hvc), fun j => (hof j).2⟩
  have hkeep := h.keep hq hopen hnoted s.vcCur fun hp hlt => h.early hp hlt
  refine Reaches.modify_bind trivial (Reaches.get_bind (Reaches.when (fun hc => ?_) fun _ => hkeep))
  refine Reaches.ofOption_bind hq fun vc hvc => ?_
  have hp := isPrimary_iff.1 (Bool.and_eq_true_iff.1 hc).2
  have hid : vc.id = m.vcid := (hnoted.filed _ _ hvc).1
  refine h.addToNewView_exact hq hopen hp hz hnoted _ (hid ▸ hvc) ?_
  have hc : (((ackWith m s).vcs m.vcid).ackCount + 1 == 2 * V.cfg.f &&
    (ackWith m s).isPrimary V) = true := hc
  have hvc : (ackWith m s).vcOf m.vcid = some vc := hvc
  rw [ackFits, if_pos hc, hvc] at hf
  exact hf

theorem addAck_exact (m : ViewChangeAck) (hpos : m.v = s.v → s.v ≠ 0)
    (hf : counts V m s = true → ackFits V m (ackWith m s) = true) :
    Ensures (NVInfo.addAck V m) s (fun _ t => Exact V.cfg V.id t ∧ Outcome s t)
      fun t => pnvCalls t.calls = 0 := by
  refine Reaches.get_bind (Reaches.assert_bind hq
    fun ha => Reaches.ite (fun _ => Reaches.pure ⟨h, .refl hq⟩) fun hc => ?_)
  have hz : s.v ≠ 0 := hpos (by simpa using ha)
  have hopen : s.isComplete = false := by simpa using hc
  refine Reaches.ofOption_bind hq fun nv hnv => ?_
  cases hd : ackDigest V s nv m.vcid with
  | none => exact Reaches.pure ⟨h, .refl hq⟩
  | some d =>
    refine Ensures.bind (Reaches.when (fun hcount => ?_) fun _ => ⟨h, .refl hq⟩)
      fun _ t ht => Reaches.pure ht
    refine h.countAck_exact hq hopen hz m (hf ?_)
    simp only [Bool.and_eq_true, Bool.not_eq_true', beq_iff_eq] at hcount
    obtain ⟨⟨hin, heq⟩, hrep⟩ := hcount
    have hnone : (nv.viewChange V.cfg m.vcid).isNone = true := by simpa using hin
    simp only [counts, hnv, hopen, hnone, hd, heq, hrep, Bool.not_false, Bool.true_and, BEq.rfl]

omit hq in
/-- An open request belongs to a new view that is not complete. -/
theorem Exact.open_live {n : Int} (ho : s.open' n = some true) :
    s.isComplete = false ∧ s.chosenCkpt.isSome = true ∧ s.min < n ∧ n < s.max := by
  unfold open' at ho
  split at ho
  · rename_i hc
    obtain ⟨hch, h1, h2⟩ := hc
    obtain ⟨o, hcomp, hnone⟩ := Option.map_eq_some_iff.1 ho
    have hnone : o = none := by simpa using hnone
    subst hnone
    refine ⟨Bool.eq_false_iff.2 fun hc => ?_, hch, h1, h2⟩
    have hdone := (h.settled.1 hc).2 n h1 h2
    rw [done, hcomp] at hdone
    cases hdone
  · cases ho

/-- A missing message for an entry of an open request. -/
theorem Exact.entry_exact {n : Int} (ho : s.open' n = some true) {j : Nat} (cur : ReqSum) :
    Ensures (do
      modify (setCell n j cur)
      checkComp V n j) s (fun _ t => Exact V.cfg V.id t ∧ Outcome s t)
        fun t => pnvCalls t.calls = 0 := by
  obtain ⟨hopen, hch, h1, h2⟩ := h.open_live ho
  have hl : Live (setCell n j cur s) :=
    ((h.waiting hopen hq).live hch).of_slots (setCell_slots n j cur s) rfl rfl
  refine Reaches.modify_bind trivial (Reaches.mono (checkComp_ensures hl ⟨h1, h2⟩ j)
    fun _ t ⟨hm, _, _, ht⟩ => ?_)
  exact h.move hopen hch (by omega) (hm.fixed.trans (setCell_fixed n j cur s)) (ht.imp id And.left)

theorem addMissing_exact (pp : PrePrepareMsg) (digestOk : Bool) :
    Ensures (NVInfo.addMissing V pp digestOk) s (fun _ t => Exact V.cfg V.id t ∧ Outcome s t)
      fun t => pnvCalls t.calls = 0 := by
  refine Reaches.get_bind (Reaches.ofOption_bind hq
    fun o ho => Reaches.when (fun hc => ?_) fun _ => ⟨h, .refl hq⟩)
  subst hc
  refine Reaches.ofOption_bind hq fun r _ => ?_
  cases r.findIdx? fun cur => cur.d == pp.digest with
  | none => exact Reaches.pure ⟨h, .refl hq⟩
  | some j =>
    exact Reaches.ofOption_bind hq fun cur _ => Reaches.when (fun _ => h.entry_exact hq ho _)
      fun _ => ⟨h, .refl hq⟩

theorem addMissingPrepare_exact (p : Prepare) :
    Ensures (NVInfo.addMissingPrepare V p) s (fun _ t => Exact V.cfg V.id t ∧ Outcome s t)
      fun t => pnvCalls t.calls = 0 := by
  refine Reaches.get_bind (Reaches.ofOption_bind hq
    fun o ho => Reaches.when (fun hc => ?_) fun _ => ⟨h, .refl hq⟩)
  subst hc
  refine Reaches.ofOption_bind hq fun r _ => ?_
  cases r.findIdx? fun cur => cur.d == p.digest with
  | none => exact Reaches.pure ⟨h, .refl hq⟩
  | some j =>
    refine Reaches.ofOption_bind hq fun cur _ =>
      Reaches.when (fun _ => Reaches.assert_bind hq fun _ => ?_) fun _ => ⟨h, .refl hq⟩
    exact Reaches.when (fun _ => h.entry_exact hq ho _) fun _ => ⟨h, .refl hq⟩

theorem perform_exact (a : NVStep) (hV : V.prePrepare = a.prePrepare ∧ V.prepare = a.prepare)
    (ho : a.op.ofView = true) (hv : a.op.verified V.cfg V.id = true)
    (hf : a.fits V.cfg V.id s = true) :
    Ensures (a.op.perform V) s (fun _ t => Exact V.cfg V.id t ∧ Outcome s t)
      fun t => pnvCalls t.calls = 0 := by
  obtain ⟨op, prePrepare, prepare⟩ := a
  obtain ⟨rfl, rfl⟩ := hV
  cases op with
  | newNewView v => exact ensures_unit (addNewView_exact h hq _)
  | addNewView m => exact ensures_unit (addNewView_exact h hq m)
  | addViewChange m verified digestOk =>
    refine ensures_unit (addViewChange_exact h hq m verified digestOk (fun heq => ?_) fun hst => ?_)
    · have hpos : 0 < m.v := (of_decide_eq_true (Bool.and_eq_true_iff.1 hv).1).2.2.1
      omega
    · have hf : (!stores V m verified digestOk s || storedFits V m (s.store m)) = true := hf
      simpa [hst] using hf
  | addAck m =>
    refine ensures_unit (addAck_exact h hq m (fun heq => ?_) fun hc => ?_)
    · have hpos : 0 < m.v := (of_decide_eq_true hv).2.2.2.1
      omega
    · have hf : (!counts V m s || ackFits V m (ackWith m s)) = true := hf
      simpa [hc] using hf
  | addMissing pp digestOk => exact addMissing_exact h hq pp digestOk
  | addMissingPrepare p => exact addMissingPrepare_exact h hq p
  | fetchRequest _ | markStable _ | markStale => cases ho

omit hq in
/-- A complete new view is left as it is. -/
theorem perform_over (hc : s.isComplete = true) (op : NVOp) (ho : op.ofView = true)
    (h1 : ∀ v, op = .newNewView v → v ≤ s.v) (h2 : ∀ m, op = .addNewView m → m.v ≤ s.v) :
    Ensures (op.perform V) s (fun _ t => t = s) fun t => t = s := by
  have hopen : ∀ {n : Int}, s.open' n ≠ some true := fun ho => by simp [(h.open_live ho).1] at hc
  cases op with
  | newNewView v =>
    exact ensures_unit (Reaches.get_bind (Reaches.ite (fun _ => Reaches.pure rfl)
      fun hlt => absurd (h1 v rfl) hlt))
  | addNewView m =>
    exact ensures_unit (Reaches.get_bind (Reaches.ite (fun _ => Reaches.pure rfl)
      fun hlt => absurd (h2 m rfl) hlt))
  | addViewChange m verified digestOk =>
    refine ensures_unit (Reaches.get_bind (Reaches.assert_bind rfl
      fun _ => Reaches.ite (fun _ => Reaches.pure rfl) fun hno => ?_))
    simp [hc] at hno
  | addAck m =>
    exact ensures_unit (Reaches.get_bind (Reaches.assert_bind rfl
      fun _ => Reaches.ite (fun _ => Reaches.pure rfl) fun hno => absurd hc hno))
  | addMissing pp digestOk =>
    exact Reaches.get_bind (Reaches.ofOption_bind rfl
      fun o ho => Reaches.when (fun hb => absurd (hb ▸ ho) hopen) fun _ => rfl)
  | addMissingPrepare p =>
    exact Reaches.get_bind (Reaches.ofOption_bind rfl
      fun o ho => Reaches.when (fun hb => absurd (hb ▸ ho) hopen) fun _ => rfl)
  | fetchRequest _ | markStable _ | markStale => cases ho

end Operations

/-! ## Runs -/

namespace Counted

structure Inv (cfg : Cfg) (id : Nat) (σ : Counted) : Prop where
  exact' : Exact cfg id σ.s
  calls : σ.s.calls = []
  once : σ.made = if σ.s.isComplete then 1 else 0

theorem new_inv : Inv cfg id Counted.new where
  exact' := by
    refine ⟨(by rintro j m ⟨⟩), fun _ => ⟨rfl, rfl⟩, ⟨nofun, nofun⟩, fun _ =>
      ⟨fun k c hk => ?_, nofun⟩, fun _ _ => rfl, rfl,
      fun _ => ⟨rfl, rfl, rfl, rfl, fun _ => rfl⟩, nofun⟩
    have hk : ([] : List CkptSum)[k]? = some c := hk
    simp at hk
  calls := rfl
  once := rfl

theorem step_inv {σ τ : Counted} {a : NVStep} (h : Inv cfg id σ) (hf : a.fits cfg id σ.s = true)
    (hs : σ.step cfg id a = some τ) :
    Inv cfg id τ := by
  unfold step at hs
  split at hs
  · rename_i hc
    obtain ⟨ho, hv⟩ := Bool.and_eq_true_iff.1 hc
    have hp := perform_exact (V := ⟨cfg, id, a.prePrepare, a.prepare⟩)
      h.exact' (by rw [h.calls]; rfl) a ⟨rfl, rfl⟩ ho hv hf
    cases hx : a.op.perform ⟨cfg, id, a.prePrepare, a.prepare⟩ σ.s with
    | mk o t =>
      rw [hx] at hs
      cases o with
      | none => cases hs
      | some _ =>
        cases hs
        have hres := hp.result.1
        rw [hx] at hres
        obtain ⟨he, hout⟩ := hres () rfl
        refine ⟨⟨he.filed, he.zero, he.ranks, fun hp =>
          ⟨(he.ranked hp).keys, (he.ranked hp).chosen⟩,
          he.early, he.count, he.blank, he.span⟩, rfl, ?_⟩
        show (if t.v = σ.s.v then σ.made else 0) + pnvCalls t.calls = if t.isComplete then 1 else 0
        rcases hout with ⟨hv, hkeep, hcalls⟩ | ⟨hv, hopen, hcalls⟩
        · rw [if_pos hv, h.once, hcalls]
          cases hb : σ.s.isComplete with
          | false => simp
          | true =>
            have ht : t.isComplete = true := hkeep hb
            simp [ht]
        · rw [if_neg hv, hcalls, hopen]
          rfl
  · cases hs

theorem Inv.onTime {σ : Counted} (h : Inv cfg id σ) :
    OnTime cfg id (fun s a => a.fits cfg id s) σ where
  count := h.exact'.count
  complete := h.exact'.settled
  once := h.once
  still hc a ho h1 h2 := by
    have hp :=
      (perform_over (V := ⟨cfg, id, a.prePrepare, a.prepare⟩) h.exact' hc a.op ho h1 h2).result
    cases hx : (a.op.perform ⟨cfg, id, a.prePrepare, a.prepare⟩ σ.s).1 with
    | none => exact hp.2 hx
    | some _ => exact hp.1 _ hx
  stops a ho hv hf hstop :=
    (perform_exact (V := ⟨cfg, id, a.prePrepare, a.prepare⟩) h.exact' (by rw [h.calls]; rfl) a ⟨rfl,
      rfl⟩ ho hv hf).result.2 hstop

/-- **Completion.** In a run for one view in which the code does not go on after the end, the new
view is complete exactly when a checkpoint is chosen and all requests are complete, and it calls
`process_new_view` once. -/
theorem completed_once (cfg : Cfg) (id : Nat) (steps : List NVStep) (σ : Counted)
    (hm : Run.Meets (step cfg id) (fun σ a => a.fits cfg id σ.s = true) Counted.new steps)
    (hr : Run.run (step cfg id) Counted.new steps = some σ) :
    OnTime cfg id (fun s a => a.fits cfg id s) σ :=
  (Run.invariant (I := Inv cfg id) (fun _ _ _ hi hf hs => step_inv hi hf hs) new_inv hm hr).onTime

/-- Replica 1, the primary, stores its own view-change and includes those of `vcs`. -/
def includedRun (own : ViewChange) (vcs : List ViewChange) : List NVStep :=
  ((.newNewView 1 :: .addViewChange own true true :: vcs.flatMap fun vc =>
    [.addViewChange vc true true, .addAck ⟨1, if vc.id = 3 then 0 else 3,
      vc.id, Replica.fourReplicas.vcDigest vc⟩]) : List NVOp).map opStep

/-- Three view-changes with a request for sequence number 1. -/
theorem completed_once_three : ∃ σ,
    Run.run (step Replica.fourReplicas 1) Counted.new
      (includedRun (preparedVC 1 5) [preparedVC 0 5, preparedVC 2 5]) = some σ ∧
      σ.s.doneCount = 1 ∧ Settled σ.s ∧ σ.made = 1 := by
  have hrun : ((Run.run (step Replica.fourReplicas 1) Counted.new
    (includedRun (preparedVC 1 5) [preparedVC 0 5, preparedVC 2 5])).any
      fun σ => decide (σ.s.isComplete = true ∧ σ.s.nComplete = 1)) = true := by decide +kernel
  obtain ⟨σ, hσ, h⟩ := (Option.any_eq_true _ _).1 hrun
  obtain ⟨hc, hn⟩ := of_decide_eq_true h
  have ht := completed_once Replica.fourReplicas 1 _ σ (by decide +kernel) hσ
  refine ⟨σ, hσ, ?_, ht.complete.1 hc, ?_⟩
  · have := ht.count
    omega
  · rw [ht.once, hc]
    rfl

/-- Replica 1 has a stable checkpoint at 2, replicas 0 and 2 have none after 0. -/
def twoCheckpoints : List NVStep :=
  includedRun (stableVC 1 2 [6]) [stableVC 0 0 [5], stableVC 2 0 [5]] ++
    [opStep (.addViewChange (stableVC 3 0 [5, 6]) true true)]

def lastAck : NVStep :=
  opStep (.addAck ⟨1, 0, 3, Replica.fourReplicas.vcDigest (stableVC 3 0 [5, 6])⟩)

/-- The view-change of replica 3 gives both checkpoints enough proofs: with the first the new view
is complete, and the second makes the message again. -/
theorem made_again : ¬∀ (cfg : Cfg) (id : Nat) (steps : List NVStep) (σ : Counted),
    Run.run (step cfg id) Counted.new steps = some σ → OnTime cfg id (fun _ _ => true) σ := by
  intro hall
  have hrun : ((Run.run (step Replica.fourReplicas 1) Counted.new twoCheckpoints).any fun σ =>
      decide ((lastAck.op.perform ⟨Replica.fourReplicas,
        1, lastAck.prePrepare, lastAck.prepare⟩ σ.s).1 = none ∧
        pnvCalls (lastAck.op.perform ⟨Replica.fourReplicas,
          1, lastAck.prePrepare, lastAck.prepare⟩ σ.s).2.calls = 1)) = true := by
    decide +kernel
  obtain ⟨σ, hσ, h⟩ := (Option.any_eq_true _ _).1 hrun
  obtain ⟨hstop, hcalls⟩ := of_decide_eq_true h
  have hzero :=
    (hall Replica.fourReplicas 1 twoCheckpoints σ hσ).stops lastAck rfl (by decide) rfl hstop
  exact absurd (hcalls.symm.trans hzero) (by decide)

end Counted

end NVInfo

end TinyBFT
