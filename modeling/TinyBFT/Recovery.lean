import TinyBFT.KMax
import TinyBFT.LogWindow
import TinyBFT.StableEstimator

/-!
# The bounds that a recovering replica takes (`Stable_estimator.cc`, `Replica.cc`)

A replica that recovers asks the others for their last checkpoints and prepared requests. From the
answers it derives an upper bound for what a correct replica can have, and a lower one, to which it
falls back if its own state is not believable.

| here | there |
| --- | --- |
| `lps`, `LowEstimate` | `low_estimate` (`Stable_estimator.cc:80-90`); `K_max` need not return (`KMax.Returns`) |
| `Progress`        | the numbers and logs that `enforce_bound` reads or sets; elements empty or not |
| `Log.emptyFrom`   | a loop over the elements of a log above the bound (`Replica.cc:1985-1995`) |
| `enforceBound`    | `enforce_bound` (`Replica.cc:1975-2017`), given those of `vi` and `state` |
| `IsReported`      | the `(f + 1)`-th largest `last_prepared` of the reports |
| `FitInt`          | where `const int lp = m->last_prepared()` of `add` (`Stable_estimator.cc:24`) keeps the value |

A replica without an answer counts as -1. `K_max` never finds these, and the division rounds towards
0: with fewer than `f + 1` answers it may go on for ever, and near the sequence number 0 the bound
is negative (`lowEstimate_usable_iff`). A report that does not fit an `int` counts as another one.
-/

namespace TinyBFT

/-- What `enforce_bound` knows of the replica's progress. -/
structure Progress where
  lastStable : Int
  seqno : Int
  lowBound : Int
  lastPrepared : Int
  lastTentativeExecute : Int
  lastExecuted : Int
  limbo : Bool
  corrupt : Bool
  plog : Log Bool
  clog : Log Bool
  elog : Log Bool

/-- No element above `b` is in use; `none` is a failed assertion of `fetch`. -/
def Log.emptyFrom (size : Nat) (l : Log Bool) (b : Int) : Option Bool :=
  (List.range (l.head + size - 1 - b).toNat).foldlM (fun ok (j : Nat) =>
    if ok then l.fetch size (b + 1 + j) else some false) true

namespace Progress

variable (P : Params)

/-- `correct`: nothing is above the bound. -/
def consistent (b : Int) (t : Progress) : Option Bool := do
  let correct := !t.corrupt && t.lastStable ≤ b - P.maxOut &&
    t.seqno ≤ b && t.lowBound ≤ b && t.lastPrepared ≤ b &&
    t.lastTentativeExecute ≤ b && t.lastExecuted ≤ b &&
    (t.lastTentativeExecute == t.lastExecuted || t.lastTentativeExecute == t.lastExecuted + 1)
  let correct ← if correct then t.plog.emptyFrom P.maxOut b else some false
  let correct ← if correct then t.clog.emptyFrom P.maxOut b else some false
  if correct then t.elog.emptyFrom (2 * P.maxOut) b else some false

/-- The replica falls back to `knownStable`. -/
def fallBack (knownStable : Int) (t : Progress) : Progress :=
  { t with
    seqno := knownStable, lastPrepared :=
      knownStable, lowBound := knownStable, lastStable := knownStable
    lastTentativeExecute := 0, lastExecuted := 0, limbo := false
    plog := t.plog.clearAll P.maxOut (fun _ => true) (knownStable + 1)
    clog := t.clog.clearAll P.maxOut (fun _ => true) (knownStable + 1)
    elog := t.elog.clearAll (2 * P.maxOut) (fun _ => true) knownStable }

def enforceBound (b knownStable : Int) (viOk stateOk : Bool) (t : Progress) : Option Progress := do
  let correct ← consistent P b t
  let t := if correct then t else fallBack P knownStable t
  some { t with corrupt := !(correct && viOk && stateOk) }

/-- The logs begin at a checkpoint that can be stable. -/
structure ValidHeads (t : Progress) : Prop where
  nonneg : 0 ≤ t.lastStable
  checkpoint : (P.ckptInterval : Int) ∣ t.lastStable
  plog : t.plog.head = t.lastStable + 1
  clog : t.clog.head = t.lastStable + 1
  elog : t.elog.head = t.lastStable

variable {P} in
theorem validHeads_enforceBound {b knownStable : Int} {viOk stateOk : Bool} {t t' : Progress}
    (h0 : 0 ≤ knownStable) (hdvd : (P.ckptInterval : Int) ∣ knownStable)
    (hc : consistent P b t = some false)
    (h : enforceBound P b knownStable viOk stateOk t = some t') : ValidHeads P t' := by
  unfold enforceBound at h
  rw [hc] at h
  obtain rfl := Option.some.inj h
  exact ⟨h0, hdvd, rfl, rfl, rfl⟩

end Progress

namespace StableEstimator

variable (P : Params) (E : Env)

def lps (s : StableEstimator) : List Int := (List.range E.n).map fun i => (s.vals i).lp

/-- The result for the value that `K_max` returns. -/
def lowFor (mlp : Int) : Int :=
  Int.tdiv (mlp - P.maxOut + P.ckptInterval - 2) P.ckptInterval * P.ckptInterval

/-- `low_estimate` returns `low`. -/
def LowEstimate (s : StableEstimator) (low : Int) : Prop :=
  ∃ mlp, KMax.Returns (E.f + 1) (lps E s) seqnoMax mlp ∧ low = lowFor P mlp

/-- `r` is the `(f + 1)`-th largest `last_prepared` of the replicas. -/
def IsReported (ms : List ReplyStable) (r : Int) : Prop :=
  E.f + 1 ≤ reporters E.n ms (fun m => r ≤ m.lp) ∧ reporters E.n ms (fun m => r < m.lp) < E.f + 1

/-- The reports are what `add` reads. -/
def FitInt (ms : List ReplyStable) : Prop := ∀ m ∈ ms, -2 ^ 31 ≤ m.lp ∧ m.lp < 2 ^ 31

instance (ms : List ReplyStable) : Decidable (FitInt ms) := inferInstanceAs (Decidable (∀ _ ∈ _, _))

/-- **A usable bound**: a checkpoint, not above the prepared request `r`, that is stable wherever
`r` was prepared; and what is cleared is cleared to a valid head. -/
structure UsableBound (ms : List ReplyStable) (low r : Int) : Prop where
  nonneg : 0 ≤ low
  checkpoint : (P.ckptInterval : Int) ∣ low
  reported : IsReported E ms r
  le : low ≤ r
  stable : ∀ t : Progress, t.ValidHeads P → t.plog.withinRange P.maxOut r = true →
    low ≤ t.lastStable
  heads : ∀ (b : Int) (viOk stateOk : Bool) (t t' : Progress), t.consistent P b = some false →
    t.enforceBound P b low viOk stateOk = some t' → t'.ValidHeads P

/-- `low_estimate` returns, and its result is usable. -/
def Usable (s : StableEstimator) (ms : List ReplyStable) : Prop :=
  ∃ low r, LowEstimate P E s low ∧ UsableBound P E ms low r

/-- Enough replicas have prepared far enough. -/
def Answered (s : StableEstimator) : Prop := E.f + 1 ≤ (lps E s).countP fun y :
    Int => decide (0 ≤ y ∧ (P.maxOut : Int) + 2 < y + 2 * P.ckptInterval)

instance (s : StableEstimator) : Decidable (Answered P E s) := inferInstanceAs (Decidable (_ ≤ _))

variable {P E} {s : StableEstimator} {ms : List ReplyStable} {m : ReplyStable} {r low : Int}

/-! ## What is recorded -/

theorem reporters_le {n : Nat} {q q' : ReplyStable → Bool} (h : ∀ m, q m = true → q' m = true) :
    reporters n ms q ≤ reporters n ms q' := by
  refine List.countP_mono_left fun k _ hk => ?_
  simp only [List.any_eq_true, Bool.and_eq_true] at hk ⊢
  obtain ⟨m, hm, hid, hq⟩ := hk
  exact ⟨m, hm, hid, h m hq⟩

/-- The values have the reports as `add` reads them. -/
structure Recorded (s : StableEstimator) (ms : List ReplyStable) : Prop where
  lt : ∀ i, (s.vals i).lp < 2 ^ 31
  lp : ∀ i x, 0 ≤ x → (x ≤ (s.vals i).lp ↔ ∃ m ∈ ms, m.id = i ∧ x ≤ toInt m.lp)

theorem recorded_clear (s : StableEstimator) : Recorded s.clear [] :=
  ⟨fun _ => by simp [clear, markStale, Val.clear],
    fun _ x hx => by simp [clear, markStale, Val.clear]; omega⟩

theorem Recorded.count (h : Recorded s ms) (hid : m.id < E.n) :
    Recorded (s.count E m) (m :: ms) := by
  obtain ⟨pre, suf, hp⟩ := count_spec (s := s) hid
  constructor
  · intro i
    by_cases hi : i = m.id
    · subst hi
      rw [hp.lp]
      exact max_lt (h.lt _) (toInt_lt _)
    · rw [count_lp_other hid hi]
      exact h.lt i
  · intro i x hx
    simp only [List.mem_cons, exists_eq_or_imp]
    by_cases hi : i = m.id
    · subst hi
      rw [hp.lp, le_max_iff, h.lp _ x hx]
      simp [or_comm]
    · rw [count_lp_other hid hi, h.lp i x hx]
      simp [Ne.symm hi]

theorem recorded_run {cs : List Call} {t : StableEstimator × List ReplyStable}
    (hv : Run.Meets (step P E) (Valid P E) (s.clear, []) cs)
    (hr : Run.run (step P E) (s.clear, []) cs = some t) : Recorded t.1 t.2 := by
  refine Run.invariant (I := fun t => Recorded t.1 t.2)
    (fun t c t' hi hv hs => ?_) (recorded_clear s) hv hr
  by_cases hc : c.counted P E = true
  · rw [step_counted hc] at hs
    cases hs
    exact hi.count (sendable_of_counted hv hc).id
  · rw [step_dropped (by simpa using hc)] at hs
    cases hs
    exact hi

/-- The recorded values from `x` on are those of the replicas that have reported so much. -/
theorem Recorded.countP (h : Recorded s ms) (hfit : FitInt ms) {x : Int} (hx : 0 ≤ x) :
    (lps E s).countP (fun y => x ≤ y) = reporters E.n ms fun m => x ≤ m.lp := by
  unfold lps reporters
  rw [List.countP_map]
  apply List.countP_congr
  intro i _
  simp only [Function.comp, List.any_eq_true, Bool.and_eq_true,
    beq_iff_eq, decide_eq_true_eq, h.lp i x hx]
  constructor
  all_goals
    rintro ⟨m, hm, hid, hle⟩
    have heq : toInt m.lp = m.lp := toInt_eq_self (hfit m hm).1 (hfit m hm).2
    exact ⟨m, hm, hid, by omega⟩

theorem Recorded.isKth_iff (h : Recorded s ms) (hfit : FitInt ms) (hr : 0 ≤ r) :
    KMax.IsKth (E.f + 1) (lps E s) r ↔ IsReported E ms r := by
  have hsucc : ∀ l : List Int, l.countP (fun y => r < y) = l.countP
    fun y => r + 1 ≤ y := fun l => rfl
  unfold KMax.IsKth IsReported
  rw [hsucc, h.countP hfit hr, h.countP hfit (by omega)]
  exact Iff.rfl

theorem Recorded.lps_lt (h : Recorded s ms) : ∀ y ∈ lps E s, y < seqnoMax := by
  intro y hy
  obtain ⟨i, -, rfl⟩ := List.mem_map.1 hy
  have := h.lt i
  unfold seqnoMax
  omega

/-! ## The bound -/

theorem tdiv_mul_nonneg_iff {x c : Int} (hc : 0 < c) : 0 ≤ Int.tdiv x c * c ↔ -c < x := by
  rcases le_or_gt 0 x with hx | hx
  · have h := Int.tdiv_nonneg hx hc.le
    exact ⟨fun _ => by omega, fun _ => Int.mul_nonneg h hc.le⟩
  · obtain ⟨y, rfl⟩ : ∃ y, x = -y := ⟨-x, by omega⟩
    rw [Int.neg_tdiv, Int.tdiv_eq_ediv_of_nonneg (by omega)]
    constructor
    · intro h
      by_contra hle
      have h1 : 1 ≤ y / c := (Int.le_ediv_iff_mul_le hc).2 (by omega)
      have h2 : 1 * c ≤ y / c * c := Int.mul_le_mul_of_nonneg_right h1 hc.le
      rw [Int.neg_mul] at h
      omega
    · intro h
      have h1 : y / c = 0 := Int.ediv_eq_zero_of_lt (by omega) (by omega)
      rw [h1]
      simp

theorem tdiv_mul_le {x c : Int} (hc : 0 < c) (hx : 0 ≤ x) : Int.tdiv x c * c ≤ x := by
  rw [Int.tdiv_eq_ediv_of_nonneg hx]
  exact Int.ediv_mul_le x hc.ne'

theorem lowFor_nonneg_iff : 0 ≤ lowFor P r ↔ P.maxOut + 2 < r + 2 * P.ckptInterval := by
  have hc := P.ckptInterval_pos
  unfold lowFor
  rw [tdiv_mul_nonneg_iff (by omega)]
  constructor <;> intro h <;> omega

/-- The bound is at most the next checkpoint from `r - max_out` on. -/
theorem lowFor_le (P : Params) (r : Int) :
    lowFor P r ≤ max 0 (r - P.maxOut + P.ckptInterval - 2) := by
  have hc := P.ckptInterval_pos
  unfold lowFor
  rcases le_or_gt 0 (r - P.maxOut + P.ckptInterval - 2) with hx | hx
  · exact le_max_of_le_right (tdiv_mul_le (by omega) hx)
  · refine le_max_of_le_left ?_
    generalize r - P.maxOut + P.ckptInterval - 2 = x at hx
    obtain ⟨y, rfl⟩ : ∃ y, x = -y := ⟨-x, by omega⟩
    rw [Int.neg_tdiv, Int.neg_mul]
    have h : 0 ≤ Int.tdiv y P.ckptInterval * P.ckptInterval :=
      (tdiv_mul_nonneg_iff (by omega)).2 (by omega)
    omega

theorem answered_of_usable (hrec : Recorded s ms) (hfit : FitInt ms) (h : Usable P E s ms) :
    Answered P E s := by
  obtain ⟨low, r, ⟨mlp, hret, rfl⟩, hb⟩ := h
  have hr0 : 0 ≤ r := hb.nonneg.trans hb.le
  have hkth := (hrec.isKth_iff hfit hr0).2 hb.reported
  have hnn : E.f + 1 ≤ (lps E s).countP fun y => 0 ≤ y :=
    hkth.1.trans (List.countP_mono_left fun y _ hy => by
    have hy : r ≤ y := of_decide_eq_true hy
    exact decide_eq_true (by omega))
  obtain ⟨r', hret', -, hkth'⟩ := KMax.returns_of_nonneg (by omega) hnn hrec.lps_lt
  obtain rfl : r' = r := hkth'.unique hkth
  obtain rfl : mlp = r' := KMax.Exits.unique hret hret'
  have hlow := lowFor_nonneg_iff.1 hb.nonneg
  refine hkth.1.trans (List.countP_mono_left fun y _ hy => ?_)
  have hy : mlp ≤ y := of_decide_eq_true hy
  exact decide_eq_true ⟨by omega, by omega⟩

theorem usable_of_answered (hci : P.ckptInterval < P.maxOut) (hrec : Recorded s ms)
    (hfit : FitInt ms) (h : Answered P E s) :
    Usable P E s ms := by
  have hnn : E.f + 1 ≤ (lps E s).countP fun y => 0 ≤ y :=
    h.trans (List.countP_mono_left fun y _ hy => by
    have hy := of_decide_eq_true hy
    exact decide_eq_true hy.1)
  obtain ⟨r, hret, hr0, hkth⟩ := KMax.returns_of_nonneg (by omega) hnn hrec.lps_lt
  have hfar : (P.maxOut : Int) + 2 < r + 2 * P.ckptInterval := by
    by_contra hnear
    have hmore : E.f + 1 ≤ (lps E s).countP fun y => r < y :=
      h.trans (List.countP_mono_left fun y _ hy => by
      have hy := of_decide_eq_true hy
      exact decide_eq_true (by omega))
    have := hkth.2
    omega
  have hlow : 0 ≤ lowFor P r := lowFor_nonneg_iff.2 hfar
  have hle := lowFor_le P r
  have hdvd : (P.ckptInterval : Int) ∣ lowFor P r := Int.dvd_mul_left _ _
  refine ⟨lowFor P r, r, ⟨r, hret, rfl⟩, hlow, hdvd,
    (hrec.isKth_iff hfit hr0).1 hkth, by omega, fun t ht hin => ?_,
    fun b viOk stateOk t t' hc ht => Progress.validHeads_enforceBound hlow hdvd hc ht⟩
  -- two checkpoints less than an interval apart
  have hin' : t.lastStable + 1 ≤ r ∧ r < t.lastStable + 1 + P.maxOut := by
    unfold Log.withinRange at hin
    rw [ht.plog] at hin
    simpa using hin
  have h0 := ht.nonneg
  have hci' := P.ckptInterval_pos
  obtain ⟨q, hq⟩ := hdvd
  obtain ⟨p, hp⟩ := ht.checkpoint
  rw [hq, hp]
  rw [hq] at hle
  rw [hp] at hin' h0
  have hqp : q < p + 1 := by
    by_contra hge
    have hmul : (P.ckptInterval : Int) * (p + 1) ≤ P.ckptInterval * q :=
      Int.mul_le_mul_of_nonneg_left (by omega) (by omega)
    rw [Int.mul_add, Int.mul_one] at hmul
    omega
  exact Int.mul_le_mul_of_nonneg_left (by omega) (by omega)

/-- **The lower bound**, after whatever reports that fit an `int`: `low_estimate` returns and its
result is usable exactly when `f + 1` replicas have answered with a `last_prepared` above `max_out -
2 * checkpoint_interval + 2`. -/
theorem lowEstimate_usable_iff (hci : P.ckptInterval < P.maxOut) {s₀ : StableEstimator}
    {cs : List Call} (hv : Run.Meets (step P E) (Valid P E) (s₀.clear, []) cs)
    (hr : Run.run (step P E) (s₀.clear, []) cs = some (s, ms)) :
    FitInt ms → (Usable P E s ms ↔ Answered P E s) := fun hfit =>
  ⟨answered_of_usable (recorded_run hv hr) hfit, usable_of_answered hci (recorded_run hv hr) hfit⟩

/-- Four replicas report, each above the one before. -/
def ascending : List Call :=
  [⟨⟨0, 5, 0, 7, 32⟩, true, false⟩, ⟨⟨128, 130, 1, 7, 32⟩, false, true⟩,
    ⟨⟨256, 256, 2, 7, 32⟩, false, true⟩,
    ⟨⟨384, 390, 3, 7, 32⟩, false, true⟩]

theorem ascending_usable :
    ∃ s ms, Run.run (step .default ⟨4, 1, 0, true⟩) (init.clear, []) ascending = some (s, ms) ∧
    0 ≤ s.est ∧ Usable .default ⟨4, 1, 0, true⟩ s ms := by
  have hv : Run.Meets (step .default ⟨4, 1, 0, true⟩) (Valid .default ⟨4, 1, 0, true⟩) (init.clear,
    []) ascending := by decide
  refine ⟨_, _, rfl, by decide +kernel, (lowEstimate_usable_iff (by decide) hv rfl ?_).2 ?_⟩ <;>
    decide +kernel

/-- Three of four replicas that have prepared nothing yet. -/
def startUp : List Call := [⟨⟨0, 0, 0, 7, 32⟩, true, false⟩,
      ⟨⟨0, 0, 1, 7, 32⟩, false, true⟩, ⟨⟨0, 0, 2, 7, 32⟩, false, true⟩]

/-- **Right after the start** the estimation is complete with these, and the lower bound is -128. -/
theorem startUp_unusable :
    ∃ s ms, Run.run (step .default ⟨4, 1, 0, true⟩) (init.clear, []) startUp = some (s, ms) ∧
    0 ≤ s.est ∧ LowEstimate .default ⟨4, 1, 0, true⟩ s (-128) ∧
      ¬ Usable .default ⟨4, 1, 0, true⟩ s ms := by
  have hv : Run.Meets (step .default ⟨4, 1, 0, true⟩) (Valid .default ⟨4, 1, 0, true⟩) (init.clear,
    []) startUp := by decide
  refine ⟨_, _, rfl, by decide, ⟨0, .pass (by decide) (.done (by decide)), by decide⟩, fun h => ?_⟩
  have h := answered_of_usable (recorded_run hv rfl) (by decide) h
  revert h
  decide

/-- Two of seven replicas: the second one sends its report four times. -/
def twoReporters : List Call :=
  [⟨⟨128, 130, 0, 7, 32⟩, true, false⟩, ⟨⟨128, 130, 1, 7, 32⟩, false, true⟩,
    ⟨⟨128, 130, 1, 7, 32⟩, false, true⟩,
    ⟨⟨128, 130, 1, 7, 32⟩, false, true⟩, ⟨⟨128, 130, 1, 7, 32⟩, false, true⟩]

/-- The estimation is complete with these; `K_max` looks for a third replica and does not return. -/
theorem twoReporters_diverge :
    ∃ s ms, Run.run (step .default ⟨7, 2, 0, true⟩) (init.clear, []) twoReporters = some (s, ms) ∧
    0 ≤ s.est ∧ ∀ low, ¬ LowEstimate .default ⟨7, 2, 0, true⟩ s low := by
  refine ⟨_, _, rfl, by decide +kernel, ?_⟩
  rintro low ⟨mlp, hret, -⟩
  refine KMax.not_returns_of_few (k := 3) ?_ ⟨130, ?_, ?_, ?_⟩ ?_ ?_ mlp hret <;> decide +kernel

/-- Replica 2 reports `300 - 2^32`. -/
def wideReport : List Call :=
  [⟨⟨0, 0, 0, 7, 32⟩, true, false⟩, ⟨⟨256, 300, 1, 7, 32⟩, false, true⟩,
    ⟨⟨-2 ^ 32, 300 - 2 ^ 32, 2, 7, 32⟩, false, true⟩,
    ⟨⟨0, 0, 3, 7, 32⟩, false, true⟩]

/-- It counts as 300, the last prepared request of replica 1, and the lower bound is 128; the second
largest report is 0. -/
theorem wideReport_unusable :
    ∃ s ms, Run.run (step .default ⟨4, 1, 0, true⟩) (init.clear, []) wideReport = some (s, ms) ∧
    0 ≤ s.est ∧ LowEstimate .default ⟨4, 1, 0, true⟩ s 128 ∧ Answered .default ⟨4, 1, 0, true⟩ s ∧
    ¬ Usable .default ⟨4, 1, 0, true⟩ s ms := by
  have hscan : KMax.scan seqnoMax (-1) [0, 300, 300, 0] = (300, 2) := by decide +kernel
  have hret : KMax.Returns 2 [0, 300, 300, 0] seqnoMax 300 :=
    .pass (by decide) (by rw [hscan]; exact .done (by decide))
  have hlast : ∀ {l : List Int}, [0, 300, 300, 0] = l → KMax.Returns 2 l seqnoMax 300 :=
    fun h => h ▸ hret
  refine ⟨_, _, rfl, by decide +kernel,
    ⟨300, hlast (by decide +kernel), by decide⟩, by decide +kernel, ?_⟩
  rintro ⟨low, r, ⟨mlp, hmlp, rfl⟩, hb⟩
  obtain rfl : mlp = 300 := KMax.Exits.unique hmlp (hlast (by decide +kernel))
  have hr : 1 ≤ r := le_trans (by decide) hb.le
  have htwo := hb.reported.1.trans (reporters_le fun m (hm : decide (r ≤ m.lp) = true) =>
    decide_eq_true (hr.trans (of_decide_eq_true hm)))
  exact absurd htwo (by decide +kernel)

end StableEstimator

end TinyBFT
