import TinyBFT.Summaries

/-!
# The requests of a new view

`n_complete` counts the sequence numbers between `min` and `max` whose request is complete, and the
new view is complete when it reaches `max - min - 1`. That is tested at the end of `check_comp`, and
`summarize_reqs` returns after `check_comp` for an entry that was there before, but not for one that
it adds (`NV_info.cc:525-540`): then it goes on with the next sequence number.

A request is complete once an entry for it has `2f + 1` view-changes that do not contradict it and
`f + 1` proofs, and its pre-prepare, if it is not null. So what `summarize_reqs` completes can be
read off the rows and the view-changes before it (`settledWith`), and what all view-changes of a
new-view message complete, off these alone (`settles`).

| here | there |
| --- | --- |
| `done`       | `comp_reqs[i - base] >= 0` |
| `speaksFor`  | what `n_proofs` of an entry counts (`NV_info.cc:455-479`, `:505-510`) |
| `inLog`      | whether `vi->pre_prepare` finds the pre-prepare of a request |
| `arrives`    | an entry that `summarize_reqs` adds and that `check_comp` then accepts |
-/

namespace TinyBFT

namespace NVInfo

open Prog (Ensures Reaches Within Composes Holds get modify assert ofOption when each eachUntil)

/-- The request of `i` is complete. -/
def done (s : NVInfo) (i : Int) : Bool := (s.comp i).any Option.isSome

/-- The complete requests between `min` and `max`. -/
def doneCount (s : NVInfo) : Nat := (intRange (s.min + 1) s.max).countP s.done

/-! ## What completes a request -/

/-- What `vc` says of `i` counts as a proof of the request `r`. -/
def speaksFor (P : Params) (i : Int) (r : Int × Digest) (vc : ViewChange) : Bool :=
  vc.req P i == some r ||
    match vc.proofs P i with
    | some (some (v, lv, d, prepared)) =>
      if prepared then decide (r.1 ≤ lv ∧ d = r.2) else decide (r.1 ≤ v ∧ d = r.2 ∨ r.1 ≤ lv)
    | some none => decide (vc.ls < i ∧ r.1 < 0)
    | none => false

/-- The view-changes that were summarized. -/
def summedVCs (cfg : Cfg) (s : NVInfo) : List ViewChange := (sorted cfg s).filterMap s.vcOf

/-- The entries for the sequence number `i`. -/
def entriesOf (s : NVInfo) (i : Int) : List ReqSum := ((s.row i).bind (s.reqs[·]?)).getD []

section Condition

variable (V : NVEnv) (i : Int)

/-- The parent's log has a pre-prepare for `d`. -/
def inLog (d : Digest) : Bool := (V.prePrepare i d).any Option.isSome

/-- The request `r` is complete with these counts; `held` says that its pre-prepare is there. -/
def ready (r : Int × Digest) (nLe nProofs : Nat) (held : Bool) : Bool :=
  decide (V.cfg.nf ≤ nLe ∧ V.cfg.f + 1 ≤ nProofs) && (decide (r.1 < 0) || held || inLog V i r.2)

/-- The entry `c` is complete once `vc` is counted. -/
def readyWith (vc : ViewChange) (c : ReqSum) : Bool :=
  ready V i (c.v, c.d) (c.nLe + if supports V.cfg.P i c.v c.d vc then 1 else 0)
    (c.nProofs + if speaksFor V.cfg.P i (c.v, c.d) vc then 1 else 0) c.pi.isSome

/-- The request of `vc` is not in the row of `i`, and is complete at once; `W` were summarized
before. -/
def arrives (row : List ((Int × Digest) × Nat)) (W : List ViewChange) (vc : ViewChange) : Bool :=
  (vc.req V.cfg.P i).any fun r => !(row.any fun e => decide (e.1 = r)) &&
    ready V i r ((row.filter fun e => byReq.below e.1 r).length + 1)
      ((W ++ [vc]).countP (speaksFor V.cfg.P i r)) false

/-- The request of `i` is complete, or is so once `vc` is counted. -/
def settledWith (s : NVInfo) (W : List ViewChange) (vc : ViewChange) : Bool :=
  s.done i || (s.entriesOf i).any (readyWith V i vc) || arrives V i (s.rowOf i) W vc

/-- The view-changes `W` complete the request of `i`. -/
def settles (W : List ViewChange) : Bool :=
  (byReq.entries (requests V.cfg.P i W)).any fun e =>
    ready V i e.1 e.2 (W.countP (speaksFor V.cfg.P i e.1)) false

/-- The request that arrives with `vc` for `i` is the last open one between `lo` and `hi`, but `i`
is not the last sequence number. `before` and `after` are the requests that are complete without
`vc` and with it. -/
def cutsOff (rows : Int → List ((Int × Digest) × Nat)) (W : List ViewChange) (vc : ViewChange)
    (before after : Int → Bool) (lo hi : Int) : Bool :=
  arrives V i (rows i) W vc && decide (vc.ls < i ∧ i + 1 < hi) &&
    (intRange (i + 1) hi).all before && (intRange (lo + 1) i).all after

end Condition

variable {V : NVEnv} {cfg : Cfg} {id : Nat} {s t u : NVInfo}

/-! ## Counting the complete requests -/

theorem done_iff {i : Int} : s.done i = true ↔ ∃ j, s.comp i = some (some j) := by
  rw [done, Option.any_eq_true]
  constructor
  · rintro ⟨o, ho, hs⟩
    obtain ⟨j, rfl⟩ := Option.isSome_iff_exists.1 hs
    exact ⟨j, ho⟩
  · rintro ⟨j, hj⟩
    exact ⟨some j, hj, rfl⟩

/-- What the completion depends on. -/
structure Slots where
  min : Int
  max : Int
  base : Int
  rows : Nat
  compReqs : List (Option Nat)
  nComplete : Int

def slots (s : NVInfo) : Slots := ⟨s.min, s.max, s.base, s.reqs.length, s.compReqs, s.nComplete⟩

theorem comp_of_slots (h : t.slots = s.slots) (i : Int) : t.comp i = s.comp i := by
  simp only [slots, Slots.mk.injEq] at h
  exact comp_of_rows h.2.2.1 h.2.2.2.1 h.2.2.2.2.1 i

theorem done_of_slots (h : t.slots = s.slots) : t.done = s.done := by
  funext i
  rw [done, done, comp_of_slots h]

theorem full_of_slots (h : t.slots = s.slots) :
    t.nComplete = t.max - t.min - 1 ↔ s.nComplete = s.max - s.min - 1 := by
  simp only [slots, Slots.mk.injEq] at h
  rw [h.1, h.2.1, h.2.2.2.2.2]

theorem doneCount_of_slots (h : t.slots = s.slots) : t.doneCount = s.doneCount := by
  rw [doneCount, doneCount, done_of_slots h]
  simp only [slots, Slots.mk.injEq] at h
  rw [h.1, h.2.1]

theorem comp_of_row {i : Int} {r : Nat} (h : s.row i = some r) : s.comp i = s.compReqs[r]? := by
  rw [comp, h]
  rfl

theorem comp_setComp {i : Int} {j : Nat} {o : Option Nat} (h : s.comp i = some o) (k : Int) :
    (setComp i j s).comp k = if k = i then some (some j) else s.comp k := by
  simp only [comp, Option.bind_eq_bind, Option.bind_eq_some_iff] at h
  obtain ⟨r, hr, hget⟩ := h
  obtain ⟨h0, hri, -⟩ := row_eq hr
  have hset : (setComp i j s).compReqs = s.compReqs.set r (some j) := by rw [hri]; rfl
  split
  · rename_i hki
    subst hki
    have hrow : (setComp k j s).row k = some r := hr
    rw [comp_of_row hrow, hset, List.getElem?_set_self (List.getElem?_eq_some_iff.1 hget).1]
  · rename_i hki
    cases hk : s.row k with
    | none =>
      have hrow : (setComp i j s).row k = none := hk
      rw [comp, comp, hrow, hk]
      rfl
    | some r' =>
      obtain ⟨h0', hri', -⟩ := row_eq hk
      have hrow : (setComp i j s).row k = some r' := hk
      rw [comp_of_row hrow, comp_of_row hk, hset, List.getElem?_set_ne (by omega)]

/-- One more request is complete. -/
theorem doneCount_setComp {i : Int} {j : Nat} (h : s.comp i = some none)
    (hi : s.min < i ∧ i < s.max) :
    (setComp i j s).doneCount = s.doneCount + 1 := by
  have hdone : s.done i = false := by simp [done, h]
  have hset : (setComp i j s).done i = true := done_iff.2 ⟨j, by rw [comp_setComp h, if_pos rfl]⟩
  have hmem : i ∈ intRange (s.min + 1) s.max := mem_intRange.2 ⟨by omega, hi.2⟩
  have hq : ∀ k, k ≠ i → (setComp i j s).done k = s.done k := by
    intro k hk
    rw [done, done, comp_setComp h, if_neg hk]
  have hcount :=
    Count.countP_insert (P := s.done) (Q := (setComp i j s).done) (nodup_intRange _ _) hmem hdone hq
  rw [hset, if_pos rfl] at hcount
  exact hcount

theorem doneCount_le (s : NVInfo) : s.doneCount ≤ (s.max - s.min - 1).toNat := by
  refine List.countP_le_length.trans (le_of_eq ?_)
  rw [length_intRange]
  omega

/-- All requests are complete if there are as many as there are sequence numbers. -/
theorem all_done_iff (h : s.min < s.max) :
    (∀ i, s.min < i → i < s.max → s.done i = true) ↔ (s.doneCount : Int) = s.max - s.min - 1 := by
  have hlen : (intRange (s.min + 1) s.max).length = (s.max - s.min - 1).toNat := by
    rw [length_intRange]
    omega
  have hall : (∀ i, s.min < i → i < s.max → s.done i = true) ↔
    s.doneCount = (s.max - s.min - 1).toNat := by
    rw [← hlen, doneCount, List.countP_eq_length]
    constructor
    · intro hd i hi
      obtain ⟨h1, h2⟩ := mem_intRange.1 hi
      exact hd i (by omega) h2
    · intro hd i h1 h2
      exact hd i (mem_intRange.2 ⟨by omega, h2⟩)
  rw [hall]
  omega

/-- Without marks nothing is complete. -/
theorem done_unmarked (h : ∀ o ∈ s.compReqs, o = none) (i : Int) : s.done i = false := by
  refine Bool.eq_false_iff.2 fun hi => ?_
  obtain ⟨j, hj⟩ := done_iff.1 hi
  simp only [comp, Option.bind_eq_bind, Option.bind_eq_some_iff] at hj
  obtain ⟨r, -, hget⟩ := hj
  cases h _ (List.mem_of_getElem? hget)

theorem doneCount_unmarked (h : ∀ o ∈ s.compReqs, o = none) : s.doneCount = 0 :=
  List.countP_eq_zero.2 fun i _ hi => by simp [done_unmarked h i] at hi

/-! ## Open and ended new views -/

/-- What `summarize_reqs` and `check_comp` leave alone. -/
structure Fixed where
  v : Int
  ckpts : List CkptSum
  chosenCkpt : Option Nat
  min : Int
  max : Int
  base : Int
  rows : Nat
  vcCur : Nat
  vcTarget : Nat
  vcOf : Nat → Option ViewChange
  named : Option (Nat → Digest)

def fixed (s : NVInfo) : Fixed :=
  ⟨s.v, s.ckpts, s.chosenCkpt, s.min, s.max, s.base, s.reqs.length, s.vcCur, s.vcTarget, s.vcOf,
    s.nv.map (·.vcInfo)⟩

theorem min_of_fixed (h : t.fixed = s.fixed) : t.min = s.min := congrArg Fixed.min h

theorem max_of_fixed (h : t.fixed = s.fixed) : t.max = s.max := congrArg Fixed.max h

theorem vcOf_of_fixed (h : t.fixed = s.fixed) : t.vcOf = s.vcOf := congrArg Fixed.vcOf h

theorem inNewView_of_fixed (h : t.fixed = s.fixed) : t.inNewView cfg = s.inNewView cfg :=
  inNewView_of_nv (congrArg Fixed.named h)

/-- The new view is not complete, and the count is right. -/
structure Open (s : NVInfo) : Prop where
  isOpen : s.isComplete = false
  quiet : pnvCalls s.calls = 0
  count : s.nComplete = s.doneCount

/-- There is a request to come, if there are requests. -/
structure Live (s : NVInfo) : Prop extends Open s where
  tight : s.min + 1 < s.max → s.nComplete ≠ s.max - s.min - 1

structure Ended (s : NVInfo) : Prop where
  complete : s.isComplete = true
  called : pnvCalls s.calls = 1
  count : s.nComplete = s.doneCount
  full : s.nComplete = s.max - s.min - 1

theorem Open.of_slots (h : Open s) (hs : t.slots = s.slots) (hc : t.isComplete = s.isComplete)
    (hq : pnvCalls t.calls = pnvCalls s.calls) : Open t := by
  refine ⟨hc.trans h.isOpen, hq.trans h.quiet, ?_⟩
  rw [doneCount_of_slots hs, ← h.count]
  exact congrArg Slots.nComplete hs

theorem Live.of_slots (h : Live s) (hs : t.slots = s.slots) (hc : t.isComplete = s.isComplete)
    (hq : pnvCalls t.calls = pnvCalls s.calls) : Live t := by
  refine ⟨h.toOpen.of_slots hs hc hq, ?_⟩
  simp only [slots, Slots.mk.injEq] at hs
  rw [hs.1, hs.2.1, hs.2.2.2.2.2]
  exact h.tight

/-- In a new view that has ended, all requests are complete. -/
theorem Ended.done (h : Ended s) {i : Int} (hi : s.min < i ∧ i < s.max) : s.done i = true :=
  (all_done_iff (by omega)).2 (h.count ▸ h.full) i hi.1 hi.2

/-- The end changes the message and the calls only. -/
structure Announced (s t : NVInfo) : Prop where
  slots : t.slots = s.slots
  fixed : t.fixed = s.fixed
  reqs : t.reqs = s.reqs
  vcs : t.vcs = s.vcs
  complete : t.isComplete = s.isComplete

/-- `fin` calls `process_new_view`, unless it stops. -/
abbrev Announces (fin : Prog NVInfo Unit) : Prop :=
  ∀ s, Ensures fin s
    (fun _ t => Announced s t ∧ pnvCalls t.calls = pnvCalls s.calls + 1)
    fun t => pnvCalls t.calls = pnvCalls s.calls

theorem makeNewView_announces : Announces (makeNewView V) := by
  intro s
  refine Reaches.get_bind (Reaches.assert_bind rfl
    fun _ => Reaches.ofOption_bind rfl fun nv hnv => Reaches.modify_bind trivial ?_)
  refine Reaches.ofOption_bind rfl fun ks _ => Reaches.ofOption_bind rfl fun ck _ => ?_
  have hx : ({ s with nv := some nv, nvSent := true } : NVInfo).fixed = s.fixed := by
    simp only [fixed, Option.map_some, finished_vcInfo hnv]
    rfl
  exact Reaches.modify trivial ⟨⟨rfl, hx, rfl, rfl, rfl⟩, pnvCalls_pnv _ _ _ _ _⟩

theorem finishBackup_announces : Announces (finishBackup V) := by
  intro s
  refine Reaches.get_bind (Reaches.ofOption_bind rfl
    fun nv _ => Reaches.ofOption_bind rfl fun vc _ => ?_)
  refine Reaches.ofOption_bind rfl fun d _ => Reaches.assert_bind rfl
    fun _ => Reaches.ofOption_bind rfl fun ks _ => ?_
  exact Reaches.modify trivial ⟨⟨rfl, rfl, rfl, rfl, rfl⟩, pnvCalls_pnv _ _ _ _ _⟩

/-- Only `is_complete`, the message and the calls are changed. -/
structure Still (s t : NVInfo) : Prop where
  slots : t.slots = s.slots
  fixed : t.fixed = s.fixed
  reqs : t.reqs = s.reqs
  vcs : t.vcs = s.vcs

/-- The test for the end: the new view stays as it is, or ends. -/
theorem finishIf_ensures {fin : Prog NVInfo Unit} (hf : Announces fin) (h : Open s) :
    Ensures (finishIf fin) s
      (fun _ t => Still s t ∧
        (Open t ∧ s.nComplete ≠ s.max - s.min - 1 ∨ Ended t ∧ s.nComplete = s.max - s.min - 1))
      fun t => pnvCalls t.calls = 0 := by
  refine Reaches.get_bind (Reaches.when (fun hfull => ?_) fun hfull => ?_)
  · have hfull : s.nComplete = s.max - s.min - 1 := by simpa using hfull
    refine Reaches.modify_bind trivial (Ensures.imp (hf _) (fun _ t ⟨ha, hq⟩ => ?_)
      fun t hq => hq.trans h.quiet)
    have hs : t.slots = s.slots := ha.slots
    refine ⟨⟨hs, ha.fixed, ha.reqs, ha.vcs⟩, .inr ⟨⟨ha.complete, ?_, ?_, ?_⟩, hfull⟩⟩
    · rw [hq]
      exact congrArg (· + 1) h.quiet
    · rw [doneCount_of_slots hs, ← h.count]
      exact congrArg Slots.nComplete hs
    · exact (full_of_slots hs).2 hfull
  · exact ⟨⟨rfl, rfl, rfl, rfl⟩, .inl ⟨h, by simpa using hfull⟩⟩

theorem finish_announces : Announces (do
    let s ← get
    if s.isPrimary V then makeNewView V else finishBackup V) := fun s =>
  Reaches.get_bind (Reaches.ite (fun _ => makeNewView_announces s)
    fun _ => finishBackup_announces s)

/-- The entries and the marks of the sequence numbers other than `i` are left alone. -/
structure Moved (i : Int) (s t : NVInfo) : Prop where
  fixed : t.fixed = s.fixed
  vcs : t.vcs = s.vcs
  comp : ∀ k, k ≠ i → t.comp k = s.comp k
  cell : ∀ k j, k ≠ i → t.cell k j = s.cell k j
  keep : s.done i = true → t.done i = true

theorem Moved.refl (i : Int) (s : NVInfo) : Moved i s s :=
  ⟨rfl, rfl, fun _ _ => rfl, fun _ _ _ => rfl, fun h => h⟩

theorem Moved.trans {i : Int} (h : Moved i s t) (h' : Moved i t u) : Moved i s u where
  fixed := h'.fixed.trans h.fixed
  vcs := h'.vcs.trans h.vcs
  comp k hk := (h'.comp k hk).trans (h.comp k hk)
  cell k j hk := (h'.cell k j hk).trans (h.cell k j hk)
  keep hd := h'.keep (h.keep hd)

theorem Moved.done {i k : Int} (h : Moved i s t) (hk : k ≠ i) : t.done k = s.done k := by
  rw [NVInfo.done, NVInfo.done, h.comp k hk]

theorem Moved.range {i : Int} (h : Moved i s t) (hi : s.min < i ∧ i < s.max) :
    t.min < i ∧ i < t.max := by
  rw [min_of_fixed h.fixed, max_of_fixed h.fixed]
  exact hi

theorem setCell_slots (i : Int) (j : Nat) (cur : ReqSum) (s : NVInfo) :
    (setCell i j cur s).slots = s.slots := by
  simp [slots, setCell]

theorem setCell_fixed (i : Int) (j : Nat) (cur : ReqSum) (s : NVInfo) :
    (setCell i j cur s).fixed = s.fixed := by
  simp only [fixed, setCell, List.length_modify]
  rfl

theorem setCell_moved {i : Int} {j : Nat} {old : ReqSum} (h : s.cell i j = some old)
    (cur : ReqSum) : Moved i s (setCell i j cur s) where
  fixed := setCell_fixed i j cur s
  vcs := rfl
  comp k _ := comp_of_slots (setCell_slots i j cur s) k
  cell k j' hk := by rw [cell_setCell h, if_neg fun he => hk he.1]
  keep hd := by rwa [done_of_slots (setCell_slots i j cur s)]

/-- The row `k` gets one more entry. -/
theorem push_slots (k : Nat) (cur : ReqSum) (s : NVInfo) :
    ({ s with reqs := s.reqs.modify k fun r => r ++ [cur] } : NVInfo).slots = s.slots := by
  simp [slots]

theorem push_fixed (k : Nat) (cur : ReqSum) (s : NVInfo) :
    ({ s with reqs := s.reqs.modify k fun r => r ++ [cur] } : NVInfo).fixed = s.fixed := by
  simp only [fixed, List.length_modify]
  rfl

theorem push_moved {i : Int} {k : Nat} {row : List ReqSum} (hk : s.row i = some k)
    (hrow : s.reqs[k]? = some row) (cur : ReqSum) :
    Moved i s { s with reqs := s.reqs.modify k fun r => r ++ [cur] } where
  fixed := push_fixed k cur s
  vcs := rfl
  comp i' _ := comp_of_slots (push_slots k cur s) i'
  cell i' j hi' := by
    have hget := cell_modify (t := { s with reqs := s.reqs.modify k fun r => r ++ [cur] })
      hk hrow rfl rfl i' j
    rwa [if_neg hi'] at hget
  keep hd := by rwa [done_of_slots (push_slots k cur s)]

theorem Still.cell (h : Still s t) (i : Int) (j : Nat) : t.cell i j = s.cell i j := by
  have hb : t.base = s.base := congrArg Slots.base h.slots
  simp only [NVInfo.cell, row, hb, h.reqs]

theorem Still.moved (h : Still s t) (i : Int) : Moved i s t where
  fixed := h.fixed
  vcs := h.vcs
  comp k _ := comp_of_slots h.slots k
  cell k j _ := h.cell k j
  keep hd := by rwa [done_of_slots h.slots]

/-! ## `check_comp` -/

/-- The entry `c'` is `c` with what the log has of it. -/
structure Logged (V : NVEnv) (i : Int) (c c' : ReqSum) : Prop where
  tally : tally c' = tally c
  nProofs : c'.nProofs = c.nProofs
  held : c'.pi.isSome = true → c.pi.isSome = true ∨ inLog V i c.d = true

theorem fromLog_logged {c c' : ReqSum} {i : Int} (h : fromLog V s c i = some c') :
    Logged V i c c' := by
  have hlast : ∀ {b : ReqSum}, Logged V i c b →
      (some (if b.nPproofs ≤ V.cfg.f && V.prepare i b.d then { b with nPproofs := V.cfg.n }
        else b)) = some c' → Logged V i c c' := by
    intro b hb heq
    cases heq
    split
    · exact ⟨hb.tally, hb.nProofs, hb.held⟩
    · exact hb
  simp only [fromLog, Option.bind_eq_bind] at h
  split at h
  · exact hlast ⟨rfl, rfl, .inl⟩ h
  · obtain ⟨b, hb, h⟩ := Option.bind_eq_some_iff.1 h
    refine hlast ?_ h
    obtain ⟨o, ho, rfl⟩ := Option.map_eq_some_iff.1 hb
    cases o with
    | none => exact ⟨rfl, rfl, .inl⟩
    | some opp => exact ⟨rfl, rfl, fun _ => .inr (by rw [inLog, ho]; rfl)⟩

/-- **`check_comp`**: it looks at one entry, and the request is complete only if that is ready. It
is the last open request that ends the new view. -/
theorem checkComp_ensures (h : Live s) {i : Int} (hi : s.min < i ∧ i < s.max) (j : Nat) :
    Ensures (checkComp V i j) s
      (fun _ t => Moved i s t ∧ (∀ j', j' ≠ j → t.cell i j' = s.cell i j') ∧
        (∃ c c', s.cell i j = some c ∧ t.cell i j = some c' ∧ Logged V i c c' ∧
          (t.done i = true → s.done i = true ∨
            ready V i (c.v, c.d) c.nLe c.nProofs c.pi.isSome = true)) ∧
        (Live t ∨ Ended t ∧ s.done i = false))
      fun t => pnvCalls t.calls = 0 := by
  refine Reaches.get_bind (Reaches.assert_bind h.quiet
    fun _ => Reaches.ofOption_bind h.quiet fun cur hcur => ?_)
  refine Reaches.ofOption_bind h.quiet fun done hdone => Reaches.ite (fun hc => ?_) fun _ => ?_
  · obtain ⟨hnone, henough⟩ := Bool.and_eq_true_iff.1 hc
    have hnone : done = none := by simpa using hnone
    subst hnone
    have hopen : s.done i = false := by simp [NVInfo.done, hdone]
    refine Reaches.ofOption_bind h.quiet fun cur' hcur' => ?_
    have hlog := fromLog_logged hcur'
    have hother : ∀ j', j' ≠ j → (setCell i j cur' s).cell i j' = s.cell i j' := fun j' hj' => by
      rw [cell_setCell hcur, if_neg fun he => hj' he.2]
    have hself : (setCell i j cur' s).cell i j = some cur' := by
      rw [cell_setCell hcur, if_pos ⟨rfl, rfl⟩]
    have h1 : Live (setCell i j cur' s) := h.of_slots (setCell_slots i j cur' s) rfl rfl
    have hm1 := setCell_moved hcur cur'
    refine Reaches.modify_bind trivial (Reaches.ite (fun ha => ?_) fun _ => Reaches.pure
      ⟨hm1, hother, ⟨cur, cur', hcur, hself, hlog, fun hd => .inl ?_⟩, .inl h1⟩)
    · have hcomp : (setCell i j cur' s).comp i = some none :=
        (comp_of_slots (setCell_slots i j cur' s) i).trans hdone
      have h2 : Open (setComp i j (setCell i j cur' s)) := by
        refine ⟨h.isOpen, h.quiet, ?_⟩
        rw [doneCount_setComp hcomp hi, Nat.cast_succ, ← h1.count]
        rfl
      have hm2 : Moved i s (setComp i j (setCell i j cur' s)) := hm1.trans
        ⟨rfl, rfl, fun k hk => by rw [comp_setComp hcomp, if_neg hk], fun _ _ _ => rfl,
          fun _ => done_iff.2 ⟨j, by rw [comp_setComp hcomp, if_pos rfl]⟩⟩
      have hready : ready V i (cur.v, cur.d) cur.nLe cur.nProofs cur.pi.isSome = true := by
        have hv : cur'.v = cur.v := congrArg Tally.v hlog.tally
        simp only [enough, Bool.and_eq_true, decide_eq_true_eq] at henough
        rw [ready, decide_eq_true ⟨henough.2, henough.1⟩, Bool.true_and, Bool.or_eq_true,
          Bool.or_eq_true, ← hv]
        rcases Bool.or_eq_true_iff.1 ha with ha | ha
        · exact .inl (.inl ha)
        · exact (hlog.held (Bool.and_eq_true_iff.1 ha).1).imp .inr id
      refine Reaches.modify_bind trivial (Reaches.mono (finishIf_ensures finish_announces h2)
        fun _ t ⟨hst, ht⟩ => ⟨hm2.trans (hst.moved i), fun j' hj' => ?_,
          ⟨cur, cur', hcur, (hst.cell i j).trans hself, hlog, fun _ => .inr hready⟩,
          ht.imp (fun ⟨ht, hne⟩ => ⟨ht, fun _ => ?_⟩) fun ⟨ht, _⟩ => ⟨ht, hopen⟩⟩)
      · exact (hst.cell i j').trans (hother j' hj')
      · exact mt (full_of_slots hst.slots).1 hne
    · rwa [done_of_slots (setCell_slots i j cur' s)] at hd
  · refine Reaches.mono (finishIf_ensures finish_announces h.toOpen)
      fun _ t ⟨hst, ht⟩ => ⟨hst.moved i, fun j' _ => hst.cell i j',
        ⟨cur, cur, hcur, (hst.cell i j).trans hcur, ⟨rfl, rfl, .inl⟩, fun hd => .inl ?_⟩, .inl ?_⟩
    · rwa [done_of_slots hst.slots] at hd
    · have htight := h.tight (by omega)
      rcases ht with ⟨ht, hne⟩ | ⟨-, hfull⟩
      · exact ⟨ht, fun _ => mt (full_of_slots hst.slots).1 hne⟩
      · exact absurd hfull htight

/-! ## The entries of a row -/

theorem mem_entriesOf {i : Int} {j : Nat} {c : ReqSum} (h : s.cell i j = some c) :
    c ∈ s.entriesOf i := by
  obtain ⟨k, r, hk, hr, hj⟩ := cell_eq_some.1 h
  rw [entriesOf, hk, Option.bind_some, hr]
  exact List.mem_of_getElem? hj

/-- The entry `c'` is `c` once `vc` is counted, or what is left of it. -/
structure Grown (V : NVEnv) (i : Int) (vc : ViewChange) (c c' : ReqSum) : Prop where
  key : (c'.v, c'.d) = (c.v, c.d)
  nProofs : c'.nProofs ≤ c.nProofs + if speaksFor V.cfg.P i (c.v, c.d) vc then 1 else 0
  held : c'.pi.isSome = true → c.pi.isSome = true ∨ inLog V i c.d = true

theorem Grown.refl (V : NVEnv) (i : Int) (vc : ViewChange) (c : ReqSum) : Grown V i vc c c :=
  ⟨rfl, Nat.le_add_right _ _, .inl⟩

theorem Grown.logged {i : Int} {vc : ViewChange} {c c' c'' : ReqSum} (h : Grown V i vc c c')
    (hl : Logged V i c' c'') : Grown V i vc c c'' := by
  have ht := hl.tally
  simp only [tally, Tally.mk.injEq] at ht
  refine ⟨?_, hl.nProofs.trans_le h.nProofs, fun hp => ?_⟩
  · rw [ht.1, ht.2.1]
    exact h.key
  · have hd : c'.d = c.d := congrArg Prod.snd h.key
    rcases hl.held hp with hp | hp
    · exact h.held hp
    · exact .inr (hd ▸ hp)

/-- `get_proofs` counts no more than one proof, of a view-change that speaks for the request. -/
theorem getProofs_speaks {vc : ViewChange} {i : Int} {c c' : ReqSum}
    (h : getProofs V c vc i = some c') :
    c'.nProofs ≤ c.nProofs + if speaksFor V.cfg.P i (c.v, c.d) vc then 1 else 0 := by
  simp only [getProofs, Option.bind_eq_bind, Option.bind_eq_some_iff] at h
  obtain ⟨o, ho, h⟩ := h
  rcases o with _ | ⟨v, lv, d, prepared⟩
  · cases h
    by_cases hc : vc.ls < i ∧ c.v < 0
    · simp [speaksFor, ho, hc]
    · simp [hc]
  · cases prepared with
    | true =>
      cases h
      by_cases hc : c.v ≤ lv ∧ d = c.d
      · simp [speaksFor, ho, hc]
      · simp [hc]
    | false =>
      replace h : (if c.v ≤ v ∧ d = c.d then
          some { c with
            nProofs := c.nProofs + 1, nPproofs := c.nPproofs + 1, rPproofs := vc.id :: c.rPproofs }
        else some (if c.v ≤ lv then { c with nProofs := c.nProofs + 1 } else c)) = some c' := h
      split at h
      · rename_i hc
        cases h
        simp [speaksFor, ho, hc]
      · cases h
        by_cases hc : c.v ≤ lv
        · simp [speaksFor, ho, hc]
        · simp [hc]

theorem countReq_grown {vc : ViewChange} {i : Int} {r : Int × Digest} {c c' : ReqSum}
    (hr : vc.req V.cfg.P i = some r) (h : countReq V vc i r.1 r.2 c = some c') :
    Grown V i vc c c' := by
  have ht := countReq_tally hr h
  simp only [tally, Tally.mk.injEq] at ht
  refine ⟨Prod.ext ht.1 ht.2.1, ?_, fun hp => .inl (by rwa [← countReq_pi h])⟩
  unfold countReq at h
  split at h
  · rename_i hkey
    cases h
    have hkey : r = (c.v, c.d) := Prod.ext hkey.1.symm hkey.2.symm
    simp [speaksFor, hr, hkey]
  · obtain ⟨b, hb, heq⟩ := Option.map_eq_some_iff.1 h
    refine le_trans (le_of_eq ?_) (getProofs_speaks hb)
    rw [← heq]
    split <;> rfl

/-- The search finds the view-changes that speak for the request. -/
theorem searchProofs_speaks {i : Int} {c c' : ReqSum} (h : searchProofs V s i c = some c') :
    c'.nProofs ≤ c.nProofs + (List.range V.cfg.n).countP fun j =>
      (s.vcs j).reqSum && (s.vcOf j).any (speaksFor V.cfg.P i (c.v, c.d)) := by
  have hfold : ∀ (l : List Nat) (b : ReqSum), (b.v, b.d) = (c.v, c.d) →
      l.foldlM (fun cur j =>
        if (s.vcs j).reqSum then do getProofs V cur (← s.vcOf j) i else some cur) b = some c' →
      c'.nProofs ≤ b.nProofs + l.countP fun j =>
        (s.vcs j).reqSum && (s.vcOf j).any (speaksFor V.cfg.P i (c.v, c.d)) := by
    intro l
    induction l with
    | nil =>
      intro b _ hb
      cases hb
      exact Nat.le_add_right _ _
    | cons j l ih =>
      intro b hkey hb
      simp only [List.foldlM_cons, Option.bind_eq_bind, Option.bind_eq_some_iff] at hb
      obtain ⟨b', hb', hl⟩ := hb
      rw [List.countP_cons]
      split at hb'
      · rename_i hsum
        obtain ⟨vc, hvc, hp⟩ := Option.bind_eq_some_iff.1 hb'
        have ht := getProofs_tally hp
        simp only [tally, Tally.mk.injEq] at ht
        have hkey' : (b'.v, b'.d) = (c.v, c.d) := by
          rw [ht.1, ht.2.1]
          exact hkey
        have hone := getProofs_speaks hp
        have hrest := ih b' hkey' hl
        rw [hkey] at hone
        rw [hsum, hvc, Option.any_some, Bool.true_and]
        omega
      · cases hb'
        have hrest := ih b hkey hl
        omega
  exact hfold _ c rfl h

/-- More view-changes make a request no less complete. -/
theorem ready_mono {i : Int} {r : Int × Digest} {k k' p p' : Nat} {held held' : Bool} (hk : k ≤ k')
    (hp : p ≤ p') (hh : held = true → held' = true ∨ inLog V i r.2 = true)
    (h : ready V i r k p held = true) : ready V i r k' p' held' = true := by
  simp only [ready, Bool.and_eq_true, Bool.or_eq_true, decide_eq_true_eq] at h ⊢
  obtain ⟨⟨h1, h2⟩, h3⟩ := h
  refine ⟨⟨by omega, by omega⟩, ?_⟩
  rcases h3 with (h3 | h3) | h3
  · exact .inl (.inl h3)
  · exact (hh h3).imp .inr id
  · exact .inr h3

section Rows

variable {vc : ViewChange} {i : Int} {r : Int × Digest}

/-- One entry. -/
theorem sumEntry_ensures (h : Live s) (hi : s.min < i ∧ i < s.max)
    (hr : vc.req V.cfg.P i = some r) (j : Nat) :
    Ensures (sumEntry V vc i r.1 r.2 j) s
      (fun b t => Moved i s t ∧ (∀ j', j' ≠ j → t.cell i j' = s.cell i j') ∧
        (∃ c c', s.cell i j = some c ∧ t.cell i j = some c' ∧ Grown V i vc c c' ∧
          (t.done i = true → s.done i = true ∨ readyWith V i vc c = true)) ∧
        if b then Ended t else Live t)
      fun t => pnvCalls t.calls = 0 := by
  refine Reaches.get_bind (Reaches.ofOption_bind h.quiet
    fun cur hcur => Reaches.ofOption_bind h.quiet fun cur' hcur' => ?_)
  have hg := countReq_grown hr hcur'
  have h1 : Live (setCell i j cur' s) := h.of_slots (setCell_slots i j cur' s) rfl rfl
  have hm1 := setCell_moved hcur cur'
  have hother : ∀ j', j' ≠ j → (setCell i j cur' s).cell i j' = s.cell i j' := fun j' hj' => by
    rw [cell_setCell hcur, if_neg fun he => hj' he.2]
  refine Reaches.modify_bind trivial (Ensures.bind (checkComp_ensures h1 hi j)
    fun _ t ⟨hm, hcells, ⟨c, c', hc, hc', hl, hdone⟩, ht⟩ => ?_)
  have hc : some cur' = some c := by
    rw [← hc, cell_setCell hcur, if_pos ⟨rfl, rfl⟩]
  cases hc
  refine Reaches.get_bind (Reaches.pure ⟨hm1.trans hm,
    fun j' hj' => (hcells j' hj').trans (hother j' hj'),
    ⟨cur, c', hcur, hc', hg.logged hl, fun hd => ?_⟩, ?_⟩)
  · rw [done_of_slots (setCell_slots i j cur' s)] at hdone
    refine (hdone hd).imp id fun hready => ?_
    have hkey : (cur'.v, cur'.d) = (cur.v, cur.d) := hg.key
    have hle : cur'.nLe = cur.nLe + if supports V.cfg.P i cur.v cur.d vc then 1 else 0 :=
      congrArg Tally.nLe (countReq_tally hr hcur')
    rw [hkey] at hready
    refine ready_mono hle.le hg.nProofs (fun hp => .inl ?_) hready
    rwa [← countReq_pi hcur']
  · rcases ht with ht | ⟨ht, -⟩
    · rw [ht.isOpen]
      exact ht
    · rw [ht.complete]
      exact ht

/-- The entries that are there. -/
structure Entered (V : NVEnv) (vc : ViewChange) (i : Int) (s t : NVInfo) : Prop where
  moved : Moved i s t
  cells : ∀ j, Option.Rel (Grown V i vc) (s.cell i j) (t.cell i j)
  done : t.done i = true → s.done i = true ∨ (s.entriesOf i).any (readyWith V i vc) = true

theorem Entered.refl (s : NVInfo) : Entered V vc i s s where
  moved := .refl i s
  cells j := by
    cases s.cell i j with
    | none => exact .none
    | some c => exact .some (.refl V i vc c)
  done := .inl

theorem sumEntries_ensures (h : Live s) (hi : s.min < i ∧ i < s.max)
    (hr : vc.req V.cfg.P i = some r) {js : List Nat} (hjs : js.Nodup) :
    Ensures (eachUntil (sumEntry V vc i r.1 r.2) js) s
      (fun b t => Entered V vc i s t ∧ if b then Ended t else Live t)
      fun t => pnvCalls t.calls = 0 := by
  -- the entries of `js` are still to come
  let I (js : List Nat) (t : NVInfo) : Prop :=
    js.Nodup ∧ Entered V vc i s t ∧ (∀ j ∈ js, t.cell i j = s.cell i j) ∧ Live t
  refine Reaches.mono (Reaches.eachUntil (I := I) (E := fun t => Entered V vc i s t ∧ Ended t)
    ?_ js s ⟨hjs, .refl s, fun _ _ => rfl, h⟩) fun b t ht => ?_
  · rintro j js t ⟨hnodup, he, hrest, ht⟩
    obtain ⟨hj, hjs⟩ := List.nodup_cons.1 hnodup
    refine Reaches.mono (sumEntry_ensures ht (he.moved.range hi) hr j)
      fun b u ⟨hm, hother, ⟨c, c', hc, hc', hg, hdone⟩, hb⟩ => ?_
    rw [hrest j List.mem_cons_self] at hc
    have hu : Entered V vc i s u := by
      refine ⟨he.moved.trans hm, fun j' => ?_, fun hd => ?_⟩
      · by_cases hj' : j' = j
        · subst hj'
          rw [hc, hc']
          exact .some hg
        · rw [hother j' hj']
          exact he.cells j'
      · rcases hdone hd with hd | hd
        · exact he.done hd
        · exact .inr (List.any_eq_true.2 ⟨c, mem_entriesOf hc, hd⟩)
    cases b with
    | true => exact ⟨hu, hb⟩
    | false =>
      refine ⟨hjs, hu, fun j' hj' => ?_, hb⟩
      rw [hother j' fun he => hj (he ▸ hj')]
      exact hrest j' (List.mem_cons_of_mem _ hj')
  · cases b with
    | true => exact ht
    | false => exact ⟨ht.2.1, ht.2.2.2⟩

/-- The keys stay. -/
theorem Entered.keys (h : Entered V vc i s t) :
    (t.rowOf i).map Prod.fst = (s.rowOf i).map Prod.fst := by
  refine List.ext_getElem? fun j => ?_
  rw [List.getElem?_map, List.getElem?_map, rowOf_getElem, rowOf_getElem]
  have hrel := h.cells j
  cases hs : s.cell i j with
  | none =>
    rw [hs] at hrel
    cases ht : t.cell i j with
    | none => rfl
    | some c' =>
      rw [ht] at hrel
      cases hrel
  | some c =>
    rw [hs] at hrel
    cases ht : t.cell i j with
    | none =>
      rw [ht] at hrel
      cases hrel
    | some c' =>
      rw [ht] at hrel
      cases hrel with
      | some hg => exact congrArg some hg.key

end Rows

/-! ## `summarize_reqs` -/

/-- The view-changes that were summarized are among `W`. -/
def Heard (V : NVEnv) (W : List ViewChange) (s : NVInfo) : Prop :=
  ∀ i r, ((List.range V.cfg.n).countP fun j =>
    (s.vcs j).reqSum && (s.vcOf j).any (speaksFor V.cfg.P i r)) ≤ W.countP (speaksFor V.cfg.P i r)

theorem Heard.of_vcs {W : List ViewChange} (h : Heard V W s) (hv : t.vcs = s.vcs) :
    Heard V W t := by
  intro i r
  have hof : t.vcOf = s.vcOf := funext fun j => congrArg VCInfo.vc (congrFun hv j)
  rw [hof, hv]
  exact h i r

/-- The entry `c` was added for `vc`. -/
structure Fresh (V : NVEnv) (W : List ViewChange) (vc : ViewChange) (i : Int)
    (c : ReqSum) : Prop where
  key : vc.req V.cfg.P i = some (c.v, c.d)
  nProofs : c.nProofs ≤ (W ++ [vc]).countP (speaksFor V.cfg.P i (c.v, c.d))
  held : c.pi.isSome = true → inLog V i c.d = true

section Rows

variable {W : List ViewChange} {vc : ViewChange} {i : Int} {r : Int × Digest}

/-- The entry that is added. -/
theorem addEntry_ensures (h : Live s) (hi : s.min < i ∧ i < s.max)
    (hr : vc.req V.cfg.P i = some r) (hW : Heard V (W ++ [vc]) s) :
    Ensures (addEntry V vc i r.1 r.2) s
      (fun _ t => Moved i s t ∧
        (∀ j c, t.cell i j = some c → s.cell i j = some c ∨ Fresh V W vc i c) ∧
        (t.done i = true → s.done i = true ∨
          ready V i r (((s.rowOf i).filter fun e => byReq.below e.1 r).length + 1)
            ((W ++ [vc]).countP (speaksFor V.cfg.P i r)) false = true) ∧
        (Live t ∨ Ended t ∧ s.done i = false))
      fun t => pnvCalls t.calls = 0 := by
  refine Reaches.get_bind (Reaches.ofOption_bind h.quiet
    fun k hk => Reaches.ofOption_bind h.quiet fun row hrow => ?_)
  refine Reaches.ofOption_bind h.quiet fun cur hcur => ?_
  have htally := searchProofs_tally hcur
  simp only [tally, Tally.mk.injEq] at htally
  obtain ⟨hv, hd, hle, -⟩ := htally
  have hkey : (cur.v, cur.d) = r := Prod.ext hv hd
  have hproofs : cur.nProofs ≤ (W ++ [vc]).countP (speaksFor V.cfg.P i r) := by
    have hs : cur.nProofs ≤ 0 + (List.range V.cfg.n).countP fun j =>
        (s.vcs j).reqSum && (s.vcOf j).any (speaksFor V.cfg.P i r) := searchProofs_speaks hcur
    rw [Nat.zero_add] at hs
    exact hs.trans (hW i r)
  have hpi : cur.pi = none := searchProofs_pi hcur
  have hbelow : (row.filter fun c => decide (c.v < r.1)).length =
      ((s.rowOf i).filter fun e => byReq.below e.1 r).length := by
    rw [rowOf_of_row hk hrow, List.filter_map, List.length_map]
    rfl
  set s1 : NVInfo := { s with reqs := s.reqs.modify k fun r => r ++ [cur] } with hs1
  have hget := cell_modify (t := s1) hk hrow rfl rfl
  have hslots : s1.slots = s.slots := push_slots k cur s
  have hm1 : Moved i s s1 := push_moved hk hrow cur
  have hlast : s1.cell i row.length = some cur := by
    rw [hget, if_pos rfl, List.getElem?_concat_length]
  have hold : ∀ j, j ≠ row.length → s1.cell i j = s.cell i j := by
    intro j hj
    have hrowj : s.cell i j = row[j]? := by
      rw [cell, hk, Option.bind_eq_bind, Option.bind_some, hrow]
      rfl
    rw [hget, if_pos rfl, hrowj]
    rcases Nat.lt_or_ge j row.length with hlt | hge
    · exact List.getElem?_append_left hlt
    · rw [List.getElem?_eq_none hge, List.getElem?_eq_none]
      rw [List.length_append, List.length_singleton]
      omega
  have h1 : Live s1 := h.of_slots hslots rfl rfl
  refine Reaches.modify_bind trivial (Reaches.mono (checkComp_ensures h1 hi row.length)
    fun _ t hcheck => ?_)
  obtain ⟨hm, hother, ⟨c, c', hc, hc', hl, hdone⟩, ht⟩ := hcheck
  rw [hlast] at hc
  cases hc
  rw [done_of_slots hslots] at hdone ht
  refine ⟨hm1.trans hm, fun j b hb => ?_, fun hd => (hdone hd).imp id fun hready => ?_, ht⟩
  · by_cases hj : j = row.length
    · subst hj
      rw [hc'] at hb
      cases hb
      have ht' := hl.tally
      simp only [tally, Tally.mk.injEq] at ht'
      have hkey' : (c'.v, c'.d) = r := by
        rw [ht'.1, ht'.2.1]
        exact hkey
      refine .inr ⟨hkey' ▸ hr, ?_, fun hp => ?_⟩
      · rw [hl.nProofs, hkey']
        exact hproofs
      · rw [ht'.2.1]
        refine (hl.held hp).resolve_left ?_
        simp [hpi]
    · rw [hother j hj, hold j hj] at hb
      exact .inl hb
  · rw [hkey] at hready
    refine ready_mono (le_of_eq ?_) hproofs (by simp [hpi]) hready
    rw [hle, hbelow]

/-- `vc` was counted in the row of `i`. -/
structure Taken (V : NVEnv) (W : List ViewChange) (vc : ViewChange) (i : Int)
    (s t : NVInfo) : Prop where
  moved : Moved i s t
  cells : ∀ j c, t.cell i j = some c →
    (∃ b, s.cell i j = some b ∧ Grown V i vc b c) ∨ Fresh V W vc i c
  done : t.done i = true → settledWith V i s W vc = true

theorem Entered.taken (h : Entered V vc i s t) : Taken V W vc i s t where
  moved := h.moved
  cells j c hc := by
    have hrel := h.cells j
    rw [hc] at hrel
    cases hs : s.cell i j with
    | none =>
      rw [hs] at hrel
      cases hrel
    | some b =>
      rw [hs] at hrel
      cases hrel with
      | some hg => exact .inl ⟨b, rfl, hg⟩
  done hd := by
    rw [settledWith, Bool.or_eq_true, Bool.or_eq_true]
    exact .inl (h.done hd)

/-- **One sequence number.** An entry that is added may end the new view. -/
theorem sumReq_ensures (h : Live s) (hi : s.min < i ∧ i < s.max) (hW : Heard V (W ++ [vc]) s) :
    Ensures (sumReq V vc i) s
      (fun b t => Taken V W vc i s t ∧ if b then Ended t else
        Live t ∨ Ended t ∧ s.done i = false ∧ arrives V i (s.rowOf i) W vc = true)
      fun t => pnvCalls t.calls = 0 := by
  refine Reaches.get_bind (Reaches.ofOption_bind h.quiet
    fun k hk => Reaches.ofOption_bind h.quiet fun row hrow => ?_)
  refine Reaches.ofOption_bind h.quiet fun r hr => ?_
  refine Ensures.bind (sumEntries_ensures h hi hr List.nodup_range) fun b t ⟨he, ht⟩ => ?_
  cases b with
  | true => exact Reaches.pure ⟨he.taken, ht⟩
  | false =>
    have ht : Live t := ht
    refine Ensures.bind (Q := fun _ u => Taken V W vc i s u ∧
      (Live u ∨ Ended u ∧ s.done i = false ∧ arrives V i (s.rowOf i) W vc = true))
      (Reaches.when (fun hno => ?_) fun _ => ⟨he.taken, .inl ht⟩) fun _ u hu => Reaches.pure hu
    refine Reaches.mono (addEntry_ensures ht (he.moved.range hi) hr (hW.of_vcs he.moved.vcs))
      fun _ u ⟨hm, hcells, hdone, hu⟩ => ?_
    -- the entries below the new one are those of before
    have hbelow : ((t.rowOf i).filter fun e => byReq.below e.1 r).length =
        ((s.rowOf i).filter fun e => byReq.below e.1 r).length := by
      have hkeys : ∀ l : List ((Int × Digest) × Nat),
          (l.filter fun e => byReq.below e.1 r).length =
            ((l.map Prod.fst).filter fun k => byReq.below k r).length := by
        intro l
        rw [List.filter_map, List.length_map]
        rfl
      rw [hkeys, hkeys, he.keys]
    rw [hbelow] at hdone
    have harrives : u.done i = true → t.done i = true ∨
        arrives V i (s.rowOf i) W vc = true := by
      refine fun hd => (hdone hd).imp id fun hready => ?_
      rw [arrives, hr, Option.any_some, rowOf_of_row hk hrow, any_reqEntry, hno, Bool.true_and,
        ← rowOf_of_row hk hrow]
      exact hready
    refine ⟨⟨he.moved.trans hm, fun j c hc => ?_, fun hd => ?_⟩, hu.imp id fun ⟨hend, hopen⟩ => ?_⟩
    · rcases hcells j c hc with hc | hf
      · exact (he.taken (W := W)).cells j c hc
      · exact .inr hf
    · rcases harrives hd with hd | ha
      · exact he.taken.done hd
      · rw [settledWith, ha, Bool.or_true]
    · have hd := hend.done ((he.moved.trans hm).range hi)
      refine ⟨hend, ?_, (harrives hd).resolve_left (by simp [hopen])⟩
      exact Bool.eq_false_iff.2 fun hs => by simp [he.moved.keep hs] at hopen

end Rows

theorem entriesOf_getElem (s : NVInfo) (i : Int) (j : Nat) :
    (s.entriesOf i)[j]? = s.cell i j := by
  unfold entriesOf cell
  simp only [Option.bind_eq_bind]
  cases s.row i with
  | none => rfl
  | some k =>
    simp only [Option.bind_some]
    cases s.reqs[k]? with
    | none => rfl
    | some r => rfl

/-- The row and the mark of `i` are left alone. -/
structure Apart (i : Int) (s t : NVInfo) : Prop where
  comp : t.comp i = s.comp i
  cells : ∀ j, t.cell i j = s.cell i j

theorem Apart.refl (i : Int) (s : NVInfo) : Apart i s s := ⟨rfl, fun _ => rfl⟩

theorem Apart.trans {i : Int} (h : Apart i s t) (h' : Apart i t u) : Apart i s u :=
  ⟨h'.comp.trans h.comp, fun j => (h'.cells j).trans (h.cells j)⟩

theorem Apart.moved {i k : Int} (h : Apart k s t) (hm : Moved i t u) (hk : k ≠ i) :
    Apart k s u :=
  ⟨(hm.comp k hk).trans h.comp, fun j => (hm.cell k j hk).trans (h.cells j)⟩

theorem Apart.done {i : Int} (h : Apart i s t) : t.done i = s.done i := by
  rw [NVInfo.done, NVInfo.done, h.comp]

theorem Apart.entriesOf {i : Int} (h : Apart i s t) : t.entriesOf i = s.entriesOf i := by
  refine List.ext_getElem? fun j => ?_
  rw [entriesOf_getElem, entriesOf_getElem, h.cells]

theorem Apart.rowOf {i : Int} (h : Apart i s t) : t.rowOf i = s.rowOf i :=
  congrArg (List.map reqEntry) h.entriesOf

theorem Apart.settledWith {i : Int} (h : Apart i s t) (W : List ViewChange) (vc : ViewChange) :
    settledWith V i t W vc = settledWith V i s W vc := by
  rw [NVInfo.settledWith, NVInfo.settledWith, h.done, h.entriesOf, h.rowOf]

theorem settledWith_of_done {i : Int} (h : s.done i = true) (W : List ViewChange)
    (vc : ViewChange) : settledWith V i s W vc = true := by
  rw [settledWith, h]
  rfl

/-- **`vc` was summarized** in every row. -/
structure Summarized (V : NVEnv) (W : List ViewChange) (vc : ViewChange) (s t : NVInfo) :
    Prop where
  fixed : t.fixed = s.fixed
  vcs : t.vcs = (s.markSum vc.id).vcs
  cells : ∀ i j c, t.cell i j = some c →
    (∃ b, s.cell i j = some b ∧ Grown V i vc b c) ∨ Fresh V W vc i c
  done : ∀ i, t.done i = true → settledWith V i s W vc = true

theorem Summarized.taken {W : List ViewChange} {vc : ViewChange} {i : Int}
    (h : Summarized V W vc s t) (ha : Apart i s t) (hm : Taken V W vc i t u) :
    Summarized V W vc s u where
  fixed := hm.moved.fixed.trans h.fixed
  vcs := hm.moved.vcs.trans h.vcs
  cells k j c hc := by
    by_cases hk : k = i
    · subst hk
      exact (hm.cells j c hc).imp (fun ⟨b, hb, hg⟩ => ⟨b, (ha.cells j).symm.trans hb, hg⟩) id
    · rw [hm.moved.cell k j hk] at hc
      exact h.cells k j c hc
  done k hd := by
    by_cases hk : k = i
    · subst hk
      exact (ha.settledWith W vc).symm.trans (hm.done hd)
    · rw [hm.moved.done hk] at hd
      exact h.done k hd

/-- The requests that arrive with `vc` do not end the new view too early. -/
def Timely (V : NVEnv) (W : List ViewChange) (vc : ViewChange) (s : NVInfo) : Prop :=
  ∀ i, s.min < i → i < s.max → s.done i = true ∨
    cutsOff V i s.rowOf W vc s.done (fun k => settledWith V k s W vc) s.min s.max = false

/-- **`summarize_reqs`** -/
theorem summarizeReqs_ensures (h : Live s) {W : List ViewChange} {vc : ViewChange}
    (hid : vc.id < V.cfg.n) (hvc : s.vcOf vc.id = some vc) (hW : Heard V W s)
    (hf : Timely V W vc s) :
    Ensures (summarizeReqs V vc) s
      (fun _ t => Summarized V W vc s t ∧ (t.isComplete = false → ∀ i, s.min < i → i < s.max →
          t.rowOf i = (vc.req V.cfg.P i).toList.foldl byReq.add (s.rowOf i)) ∧
        (Live t ∨ Ended t))
      fun t => pnvCalls t.calls = 0 := by
  refine Reaches.get_bind (Reaches.assert_bind h.quiet fun ha => Reaches.modify_bind trivial ?_)
  have hnot : (s.vcs vc.id).reqSum = false := by
    simp only [Bool.and_eq_true, Bool.not_eq_true'] at ha
    exact ha.1.2
  change Ensures _ (s.markSum vc.id) _ _
  set s1 := s.markSum vc.id with hs1
  set lo := (if vc.ls < s.min then s.min else vc.ls) + 1 with hlo
  have hlo1 : s.min < lo ∧ vc.ls < lo := by
    rw [hlo]
    split <;> omega
  have hW1 : Heard V (W ++ [vc]) s1 := by
    intro i r
    have hP : ((s.vcs vc.id).reqSum && (s.vcOf vc.id).any (speaksFor V.cfg.P i r)) = false := by
      rw [hnot, Bool.false_and]
    have hcount := Count.countP_insert (P := fun j => (s.vcs j).reqSum &&
        (s.vcOf j).any (speaksFor V.cfg.P i r))
      (Q := fun j => (s1.vcs j).reqSum && (s1.vcOf j).any (speaksFor V.cfg.P i r))
      List.nodup_range (List.mem_range.2 hid) hP fun j hj => ?_
    · have hmark : (s1.vcs vc.id).reqSum = true := (markSum_reqSum _ _ _).2 (.inr rfl)
      rw [hcount, List.countP_append, List.countP_singleton, hmark, hs1, markSum_vcOf, hvc,
        Option.any_some, Bool.true_and]
      exact Nat.add_le_add_right (hW i r) _
    · have hsum : (s1.vcs j).reqSum = (s.vcs j).reqSum := by
        rw [Bool.eq_iff_iff, hs1, markSum_reqSum]
        exact or_iff_left hj
      rw [hsum, hs1, markSum_vcOf]
  -- the sequence numbers from `m` on are still to come; there are none once the new view has ended
  let I (is : List Int) (t : NVInfo) : Prop := Summarized V W vc s t ∧
    ∃ m, lo ≤ m ∧ is = intRange m s.max ∧ (∀ k, k < lo ∨ m ≤ k → Apart k s t) ∧
    (∀ k, lo ≤ k → k < m → k < s.max → ∃ r, vc.req V.cfg.P k = some r ∧
      t.rowOf k = byReq.add (s.rowOf k) r) ∧ (Live t ∨ Ended t ∧ is = [])
  refine Ensures.bind (Reaches.eachUntil (I := I)
    (E := fun t => Summarized V W vc s t ∧ Ended t) ?_ _ s1 ?_) fun b t ht => Reaches.pure ?_
  · rintro i is t ⟨hsum, m, hm, his, hapart, hrows, ht⟩
    replace ht : Live t := ht.resolve_right fun ⟨_, hnil⟩ => by cases hnil
    obtain ⟨rfl, rfl, hlt⟩ := intRange_eq_cons his
    have hai := hapart i (.inr le_rfl)
    have hmin := min_of_fixed hsum.fixed
    have hmax := max_of_fixed hsum.fixed
    have hi : t.min < i ∧ i < t.max := by omega
    refine Ensures.imp ((sumReq_ensures ht hi (hW1.of_vcs hsum.vcs)).and sumReq_row)
      (fun b u ⟨⟨htaken, hb⟩, _, _, hrow⟩ => ?_) fun _ hq => hq.1
    have hu := hsum.taken hai htaken
    cases b with
    | true => exact ⟨hu, hb⟩
    | false =>
      obtain ⟨r, hr, hadd, hother⟩ := hrow rfl
      refine ⟨hu, i + 1, by omega, rfl, fun k hk => (hapart k (by omega)).moved htaken.moved
        (by omega), fun k h1 h2 h3 => ?_, hb.imp id fun ⟨hend, hopen, harr⟩ =>
        ⟨hend, intRange_nil ?_⟩⟩
      · by_cases hk : k = i
        · subst hk
          exact ⟨r, hr, hai.rowOf ▸ hadd⟩
        · obtain ⟨r', hr', hrow'⟩ := hrows k h1 (by omega) h3
          exact ⟨r', hr', (hother k hk).trans hrow'⟩
      · -- all others are complete, so `i` is the last one
        by_contra hnext
        rw [hai.done] at hopen
        rw [hai.rowOf] at harr
        have hall : ∀ k, s.min < k → k < s.max → u.done k = true := fun k h1 h2 =>
          hend.done (by rw [min_of_fixed hu.fixed, max_of_fixed hu.fixed]; exact ⟨h1, h2⟩)
        have hbefore : (intRange (i + 1) s.max).all s.done = true := by
          refine List.all_eq_true.2 fun k hk => ?_
          obtain ⟨h1, h2⟩ := mem_intRange.1 hk
          rw [← (hapart k (.inr (by omega))).done, ← htaken.moved.done (by omega : k ≠ i)]
          exact hall k (by omega) h2
        have hafter : (intRange (s.min + 1) i).all (fun k => settledWith V k s W vc) = true := by
          refine List.all_eq_true.2 fun k hk => ?_
          obtain ⟨h1, h2⟩ := mem_intRange.1 hk
          exact hu.done k (hall k (by omega) (by omega))
        have hcut := (hf i (by omega) hlt).resolve_left (by simp [hopen])
        rw [cutsOff, harr, hbefore, hafter, decide_eq_true (by omega)] at hcut
        cases hcut
  · have hfixed : s1.fixed = s.fixed := by
      rw [fixed, hs1, markSum_vcOf]
      rfl
    refine ⟨⟨hfixed, rfl, fun i j c hc => .inl ⟨c, hc, .refl V i vc c⟩, fun i hd => ?_⟩,
      lo, le_rfl, rfl, fun k _ => ⟨rfl, fun _ => rfl⟩, fun k h1 h2 => by omega,
      .inl (h.of_slots rfl rfl rfl)⟩
    exact settledWith_of_done hd W vc
  · cases b with
    | true => exact ⟨ht.1, fun hc => by simp [ht.2.complete] at hc, .inr ht.2⟩
    | false =>
      obtain ⟨hsum, m, hm, his, hapart, hrows, ht⟩ := ht
      have hge : s.max ≤ m := by
        by_contra hlt
        rw [intRange_cons (by omega)] at his
        cases his
      refine ⟨hsum, fun _ i h1 h2 => ?_, ht.imp id And.left⟩
      by_cases hi : i < lo
      · have hreq : vc.req V.cfg.P i = none := by
          have hle : i ≤ vc.ls := by
            rw [hlo] at hi
            split at hi <;> omega
          simp [ViewChange.req, hle]
        rw [(hapart i (.inl hi)).rowOf, hreq]
        rfl
      · obtain ⟨r, hr, hrow⟩ := hrows i (by omega) (by omega) h2
        rw [hrow, hr]
        rfl

/-! ## The first checkpoint -/

/-- The view-changes in the new-view message whose senders are below `k`. -/
def includedVCs (cfg : Cfg) (s : NVInfo) (k : Nat) : List ViewChange :=
  ((List.range k).filter (s.inNewView cfg)).filterMap s.vcOf

theorem includedVCs_succ (k : Nat) : includedVCs cfg s (k + 1) =
    includedVCs cfg s k ++ if s.inNewView cfg k then (s.vcOf k).toList else [] := by
  rw [includedVCs, List.range_succ, List.filter_append, List.filterMap_append, includedVCs]
  congr 1
  cases hk : s.inNewView cfg k with
  | false => simp [hk]
  | true => cases hvc : s.vcOf k <;> simp [hk, hvc]

/-- The requests from `lo` to `hi` that arrive while the view-changes in the message are summarized
do not end the new view too early. -/
def firstFits (V : NVEnv) (s : NVInfo) (lo hi : Int) : Bool :=
  (List.range V.cfg.n).all fun j => !s.inNewView V.cfg j || (s.vcOf j).all fun vc =>
    let W := includedVCs V.cfg s j
    (intRange (lo + 1) hi).all fun i =>
      !cutsOff V i (fun k => byReq.entries (requests V.cfg.P k W)) W vc
        (fun k => settles V k W) (fun k => settles V k (W ++ [vc])) lo hi

/-- An entry stays, and counts `vc`. -/
theorem mem_entries_snoc {i : Int} {W : List ViewChange} {e : (Int × Digest) × Nat}
    (h : e ∈ byReq.entries (requests V.cfg.P i W)) (vc : ViewChange) :
    (e.1, e.2 + if supports V.cfg.P i e.1.1 e.1.2 vc then 1 else 0) ∈
      byReq.entries (requests V.cfg.P i (W ++ [vc])) := by
  rw [requests_snoc]
  cases hr : vc.req V.cfg.P i with
  | none =>
    have hno : supports V.cfg.P i e.1.1 e.1.2 vc = false := by simp [supports, hr]
    rw [hno, Option.toList_none, List.append_nil]
    exact h
  | some r =>
    rw [Option.toList_some, supports_eq_covers hr]
    exact Summary.mem_add.2 (.inl ⟨e, h, rfl⟩)

theorem settles_of_entry {i : Int} {W : List ViewChange} {r : Int × Digest} {k p k' : Nat}
    {held : Bool} (hk : (r, k) ∈ byReq.entries (requests V.cfg.P i W)) (hle : k' ≤ k)
    (hp : p ≤ W.countP (speaksFor V.cfg.P i r)) (hh : held = true → inLog V i r.2 = true)
    (h : ready V i r k' p held = true) : settles V i W = true :=
  List.any_eq_true.2 ⟨(r, k), hk, ready_mono hle hp (fun hp => .inr (hh hp)) h⟩

theorem settles_snoc {i : Int} {W : List ViewChange} (h : settles V i W = true)
    (vc : ViewChange) : settles V i (W ++ [vc]) = true := by
  obtain ⟨e, he, hr⟩ := List.any_eq_true.1 h
  refine settles_of_entry (mem_entries_snoc he vc) (Nat.le_add_right _ _) ?_ (by simp) hr
  rw [List.countP_append]
  exact Nat.le_add_right _ _

theorem settles_includedVCs {i : Int} {j k : Nat} (hjk : j ≤ k)
    (h : settles V i (includedVCs V.cfg s j) = true) :
    settles V i (includedVCs V.cfg s k) = true := by
  induction hjk with
  | refl => exact h
  | @step k _ ih =>
    rw [includedVCs_succ]
    cases s.inNewView V.cfg k with
    | false => simpa using ih
    | true =>
      cases s.vcOf k with
      | none => simpa using ih
      | some vc => exact settles_snoc ih vc

theorem cutsOff_mono {i : Int} {rows : Int → List ((Int × Digest) × Nat)} {W : List ViewChange}
    {vc : ViewChange} {p p' q q' : Int → Bool} {lo hi : Int}
    (hp : ∀ k, lo < k → k < hi → p k = true → p' k = true)
    (hq : ∀ k, lo < k → k < hi → q k = true → q' k = true)
    (hi' : lo < i ∧ i < hi) (h : cutsOff V i rows W vc p q lo hi = true) :
    cutsOff V i rows W vc p' q' lo hi = true := by
  simp only [cutsOff, Bool.and_eq_true, List.all_eq_true] at h ⊢
  obtain ⟨⟨h1, h2⟩, h3⟩ := h
  refine ⟨⟨h1, fun k hk => ?_⟩, fun k hk => ?_⟩
  · have := mem_intRange.1 hk
    exact hp k (by omega) (by omega) (h2 k hk)
  · have := mem_intRange.1 hk
    exact hq k (by omega) (by omega) (h3 k hk)

/-- The rows are those of the view-changes `W`, from the first one on. -/
structure Sound (V : NVEnv) (W : List ViewChange) (s : NVInfo) : Prop where
  rows : ∀ i, s.min < i → i < s.max → s.rowOf i = byReq.entries (requests V.cfg.P i W)
  cells : ∀ i j c, s.cell i j = some c →
    c.nProofs ≤ W.countP (speaksFor V.cfg.P i (c.v, c.d)) ∧
      (c.pi.isSome = true → inLog V i c.d = true)
  done : ∀ i, s.min < i → i < s.max → s.done i = true → settles V i W = true

section Sound

variable {W : List ViewChange} {vc : ViewChange} {i : Int}

theorem Sound.settles (h : Sound V W s) (hi : s.min < i ∧ i < s.max)
    (hd : settledWith V i s W vc = true) : settles V i (W ++ [vc]) = true := by
  have hrow := h.rows i hi.1 hi.2
  simp only [settledWith, Bool.or_eq_true, List.any_eq_true] at hd
  rcases hd with (hd | ⟨c, hc, hready⟩) | ha
  · exact settles_snoc (h.done i hi.1 hi.2 hd) vc
  · obtain ⟨j, hj⟩ := List.mem_iff_getElem?.1 hc
    rw [entriesOf_getElem] at hj
    obtain ⟨hproofs, hheld⟩ := h.cells i j c hj
    have hmem : reqEntry c ∈ byReq.entries (requests V.cfg.P i W) := by
      rw [← hrow]
      exact List.mem_map.2 ⟨c, hc, rfl⟩
    refine settles_of_entry (mem_entries_snoc hmem vc) le_rfl ?_ hheld hready
    rw [List.countP_append, List.countP_singleton]
    exact Nat.add_le_add_right hproofs _
  · obtain ⟨r, hr, ha⟩ := (Option.any_eq_true _ _).1 ha
    obtain ⟨hno, hready⟩ := Bool.and_eq_true_iff.1 ha
    refine settles_of_entry ?_ le_rfl le_rfl (by simp) hready
    rw [requests_snoc, hr, Option.toList_some, Summary.entries_snoc, ← hrow, Summary.add]
    refine List.mem_append_right _ ?_
    rw [if_pos (by simpa [byReq] using hno)]
    exact List.mem_singleton.2 rfl

/-- One more view-change. -/
theorem Sound.snoc (h : Sound V W s) (ht : Summarized V W vc s t)
    (hrows : ∀ i, s.min < i → i < s.max →
      t.rowOf i = (vc.req V.cfg.P i).toList.foldl byReq.add (s.rowOf i)) :
    Sound V (W ++ [vc]) t := by
  have hmin := min_of_fixed ht.fixed
  have hmax := max_of_fixed ht.fixed
  refine ⟨fun i h1 h2 => ?_, fun i j c hc => ?_, fun i h1 h2 hd => ?_⟩
  · rw [hmin] at h1
    rw [hmax] at h2
    rw [hrows i h1 h2, h.rows i h1 h2, requests_snoc, Summary.entries, Summary.entries,
      List.foldl_append]
  · rcases ht.cells i j c hc with ⟨b, hb, hg⟩ | hf
    · obtain ⟨hproofs, hheld⟩ := h.cells i j b hb
      have hd : c.d = b.d := congrArg Prod.snd hg.key
      refine ⟨?_, fun hp => ?_⟩
      · rw [hg.key, List.countP_append, List.countP_singleton]
        exact hg.nProofs.trans (Nat.add_le_add_right hproofs _)
      · rw [hd]
        exact (hg.held hp).elim hheld id
    · exact ⟨hf.nProofs, hf.held⟩
  · exact h.settles ⟨by omega, by omega⟩ (ht.done i hd)

end Sound

/-- The view-changes in the message below `k` were summarized. -/
structure Including (V : NVEnv) (s : NVInfo) (k : Nat) (t : NVInfo) : Prop where
  fixed : t.fixed = s.fixed
  reqSum : ∀ j, (t.vcs j).reqSum = true ↔ s.inNewView V.cfg j = true ∧ j < k
  sound : Sound V (includedVCs V.cfg s k) t
  live : Live t

theorem Including.heard {k : Nat} (h : Including V s k t) (hk : k ≤ V.cfg.n) :
    Heard V (includedVCs V.cfg s k) t := by
  intro i r
  rw [includedVCs, vcOf_of_fixed h.fixed]
  refine (countP_order (List.nodup_range.filter _) (fun j => ?_) _).ge
  rw [h.reqSum, List.mem_filter, List.mem_range]
  constructor
  · rintro ⟨h1, h2⟩
    exact ⟨⟨h2, h1⟩, by omega⟩
  · rintro ⟨⟨h1, h2⟩, -⟩
    exact ⟨h2, h1⟩

theorem Including.timely {k : Nat} {vc : ViewChange} (h : Including V s k t)
    (hk : k < V.cfg.n) (hin : s.inNewView V.cfg k = true) (hvc : s.vcOf k = some vc)
    (hf : firstFits V s s.min s.max = true) : Timely V (includedVCs V.cfg s k) vc t := by
  intro i h1 h2
  have hmin := min_of_fixed h.fixed
  have hmax := max_of_fixed h.fixed
  have hfit := List.all_eq_true.1 hf k (List.mem_range.2 hk)
  rw [hin, hvc, Option.all_some, Bool.not_true, Bool.false_or] at hfit
  have hno := List.all_eq_true.1 hfit i (mem_intRange.2 ⟨by omega, by omega⟩)
  refine .inr (Bool.eq_false_iff.2 fun hcut => ?_)
  have hcut := cutsOff_mono (h.sound.done)
    (fun k' h1' h2' hd => h.sound.settles ⟨h1', h2'⟩ hd) ⟨h1, h2⟩ hcut
  rw [cutsOff, h.sound.rows i h1 h2, hmin, hmax] at hcut
  rw [cutsOff, hcut] at hno
  cases hno

theorem sumVC_ensures {k : Nat} (h : Including V s k t) (hk : k < V.cfg.n)
    (hfiled : ∀ j m, s.vcOf j = some m → m.id = j) (hf : firstFits V s s.min s.max = true) :
    Ensures (sumVC V k) t
      (fun b u => u.fixed = s.fixed ∧ (∀ i, s.min < i → i < s.max →
          u.done i = true → settles V i (includedVCs V.cfg s (k + 1)) = true) ∧
        if b then Ended u else Including V s (k + 1) u)
      fun u => pnvCalls u.calls = 0 := by
  have hmin := min_of_fixed h.fixed
  have hmax := max_of_fixed h.fixed
  have hnamed : t.inNewView V.cfg = s.inNewView V.cfg := inNewView_of_fixed h.fixed
  refine Reaches.get_bind (Reaches.ite (fun hin => ?_) fun hin => Reaches.pure ?_)
  · rw [hnamed] at hin
    refine Reaches.ofOption_bind h.live.quiet fun vc hvc => ?_
    have hvc' : s.vcOf k = some vc := vcOf_of_fixed h.fixed ▸ hvc
    have hid : vc.id = k := hfiled k vc hvc'
    have hnext : includedVCs V.cfg s (k + 1) = includedVCs V.cfg s k ++ [vc] := by
      rw [includedVCs_succ, if_pos hin, hvc', Option.toList_some]
    refine Ensures.bind (summarizeReqs_ensures h.live (hid ▸ hk) (hid ▸ hvc) (h.heard hk.le)
      (h.timely hk hin hvc' hf)) fun _ u ⟨hsum, hrows, hu⟩ => Reaches.get_bind (Reaches.pure ?_)
    refine ⟨hsum.fixed.trans h.fixed, fun i h1 h2 hd => ?_, ?_⟩
    · rw [hnext]
      exact h.sound.settles ⟨by omega, by omega⟩ (hsum.done i hd)
    · rcases hu with hu | hu
      · rw [hu.isOpen]
        refine ⟨hsum.fixed.trans h.fixed, fun j => ?_, hnext ▸ h.sound.snoc hsum
          (hrows hu.isOpen), hu⟩
        rw [hsum.vcs, markSum_reqSum, h.reqSum, hid]
        constructor
        · rintro (⟨h1, h2⟩ | rfl)
          · exact ⟨h1, by omega⟩
          · exact ⟨hin, by omega⟩
        · rintro ⟨h1, h2⟩
          exact (Nat.lt_or_eq_of_le (Nat.le_of_lt_succ h2)).imp (fun h2 => ⟨h1, h2⟩) id
      · rw [hu.complete]
        exact hu
  · have hin : s.inNewView V.cfg k = false := by
      rw [← hnamed]
      simpa using hin
    have hnext : includedVCs V.cfg s (k + 1) = includedVCs V.cfg s k := by
      rw [includedVCs_succ, hin]
      simp
    rw [hnext]
    refine ⟨h.fixed, fun i h1 h2 => h.sound.done i (by omega) (by omega), ?_⟩
    refine ⟨h.fixed, fun j => ?_, hnext.symm ▸ h.sound, h.live⟩
    rw [h.reqSum]
    refine and_congr_right fun hj => ?_
    have hjk : j ≠ k := by
      rintro rfl
      simp [hin] at hj
    omega

/-- **The first checkpoint**: the view-changes in the message are summarized. -/
theorem sumVCs_ensures (h : Including V s 0 s)
    (hfiled : ∀ j m, s.vcOf j = some m → m.id = j) (hf : firstFits V s s.min s.max = true) :
    Ensures (eachUntil (sumVC V) (List.range V.cfg.n)) s
      (fun b t => t.fixed = s.fixed ∧ (∀ i, s.min < i → i < s.max →
          t.done i = true → settles V i (includedVCs V.cfg s V.cfg.n) = true) ∧
        if b then Ended t else Live t)
      fun t => pnvCalls t.calls = 0 := by
  let D (t : NVInfo) : Prop := t.fixed = s.fixed ∧ ∀ i, s.min < i → i < s.max →
    t.done i = true → settles V i (includedVCs V.cfg s V.cfg.n) = true
  let I (is : List Nat) (t : NVInfo) : Prop :=
    ∃ k, is = List.range' k (V.cfg.n - k) ∧ k ≤ V.cfg.n ∧ Including V s k t
  refine Reaches.mono (Reaches.eachUntil (I := I) (E := fun t => D t ∧ Ended t) ?_ _ s
    ⟨0, List.range_eq_range', Nat.zero_le _, h⟩) fun b t ht => ?_
  · rintro i is t ⟨k, his, hk, ht⟩
    obtain ⟨rfl, hlt, rfl⟩ := List.range'_eq_cons_iff.1 his.symm
    refine Reaches.mono (sumVC_ensures ht (by omega) hfiled hf)
      fun b u ⟨hx, hdone, hb⟩ => ?_
    cases b with
    | true =>
      exact ⟨⟨hx, fun i h1 h2 hd => settles_includedVCs (by omega) (hdone i h1 h2 hd)⟩, hb⟩
    | false => exact ⟨k + 1, by rw [Nat.sub_sub], by omega, hb⟩
  · cases b with
    | true => exact ⟨ht.1.1, ht.1.2, ht.2⟩
    | false =>
      obtain ⟨k, -, hk, ht⟩ := ht
      refine ⟨ht.fixed, fun i h1 h2 hd => settles_includedVCs hk (ht.sound.done i ?_ ?_ hd),
        ht.live⟩
      · rwa [min_of_fixed ht.fixed]
      · rwa [max_of_fixed ht.fixed]

end NVInfo

end TinyBFT
