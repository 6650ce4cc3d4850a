import TinyBFT.Certificate
import TinyBFT.Lib.Count
import TinyBFT.Lib.Run
import Mathlib.Order.Bounds.Basic

/-!
# The estimate of the last stable checkpoint (`Stable_estimator.cc`, `Reply_stable.cc`)

| here | there |
| --- | --- |
| `ReplyStable`              | `Reply_stable_rep` (`Reply_stable.h:16-22`); `extra` bytes follow it |
| `ReplyStable.verify`       | `verify` (`Reply_stable.cc:26-43`); whether the MAC is right is a parameter |
| `Val`, `Val.clear`         | `Stable_estimator::Val` (`Stable_estimator.h:45-61`) |
| `Val.passed`, `visit`      | the body of the loop of `add` on another replica's value (`Stable_estimator.cc:49-64`) |
| `StableEstimator.add`      | `add` (`Stable_estimator.cc:20-70`); the `Bool` it returns is `0 ≤ est` |
| `StableEstimator.markStale`, `clear` | `mark_stale`, `clear` (`Stable_estimator.cc:72-81`) |

The loop counts `v.gep` up where the value of the sender, `val.gep`, is meant, counts a message of a
sender again that does not change its `lc` or `lp`, and leaves at the first value that completes the
estimate. `Counts` is the condition under which none of this matters.
-/

namespace TinyBFT

structure ReplyStable where
  lc : Int
  lp : Int
  id : Nat
  nonce : Int
  extra : Int
deriving DecidableEq, Repr

namespace ReplyStable

variable (P : Params) (E : Env)

/-- The first three checks of `verify`, which do not depend on the keys. -/
def wellFormed (m : ReplyStable) : Bool :=
  E.isReplica m.id && !(m.lc % P.ckptInterval != 0 || m.lp < m.lc)

/-- `MAC_size` is 32. -/
def verify (m : ReplyStable) (mac : Bool) : Bool := m.wellFormed P E && !(m.extra < 32) && mac

end ReplyStable

namespace StableEstimator

structure Val where
  lc : Int
  lec : Nat
  gep : Nat
  lp : Int
deriving DecidableEq, Repr

def Val.clear : Val := ⟨seqnoMax, 0, 0, -1⟩

/-- `vals[i]` once the loop has passed it. -/
def Val.passed (v : Val) (lc lp oc op : Int) : Val :=
  let v := if v.lc < oc ∧ lc ≤ v.lc then { v with lec := v.lec + 1 } else v
  let v := if op < v.lc ∧ v.lc ≤ lp then { v with gep := v.gep + 1 } else v
  if lc ≤ v.lp then { v with gep := v.gep + 1 } else v

/-- `val` once the loop has passed `v`. -/
def Val.above (val v : Val) (lc : Int) : Val :=
  if v.lc ≤ lc then { val with lec := val.lec + 1 } else val

variable (P : Params) (E : Env)

/-- `nle` reports of a checkpoint and `nge` of a prepared request. -/
def Val.enough (v : Val) : Bool := 2 * E.f + 1 ≤ v.lec && E.f + 1 ≤ v.gep

end StableEstimator

structure StableEstimator where
  vals : Nat → StableEstimator.Val
  est : Int

namespace StableEstimator

variable (P : Params) (E : Env)

def init : StableEstimator := ⟨fun _ => Val.clear, -1⟩

def markStale (s : StableEstimator) : StableEstimator := { s with vals := fun _ => Val.clear }

def clear (s : StableEstimator) : StableEstimator := { s.markStale with est := -1 }

/-- The loop over the values of the other replicas. -/
def loop (id : Nat) (lc lp oc op : Int) : List Nat → StableEstimator → StableEstimator
  | [], s => s
  | i :: is, s =>
    if i = id then loop id lc lp oc op is s
    else
      let v := (s.vals i).passed lc lp oc op
      let val := (s.vals id).above (s.vals i) lc
      let s := { s with vals := Function.update (Function.update s.vals i v) id val }
      if v.enough E then { s with est := v.lc } else loop id lc lp oc op is s

/-- The value of the sender before the loop. -/
def Val.lowered (val : Val) (lc lp : Int) : Val :=
  let val := if lc < val.lc then { val with lc := lc, lec := 1, gep := 1 } else val
  if val.lp < lp then { val with lp := lp } else val

/-- `oc`: the old `lc` of the sender if the message lowers it. -/
def oldLc (s : StableEstimator) (m : ReplyStable) : Int :=
  if toInt m.lc < (s.vals m.id).lc then (s.vals m.id).lc else seqnoMax

/-- `op`: the old `lp` of the sender if the message raises it. -/
def oldLp (s : StableEstimator) (m : ReplyStable) : Int :=
  if (s.vals m.id).lp < toInt m.lp then (s.vals m.id).lp else -1

/-- The sender's value takes the message in. -/
def lower (s : StableEstimator) (m : ReplyStable) : StableEstimator :=
  { s with vals := Function.update s.vals m.id ((s.vals m.id).lowered (toInt m.lc) (toInt m.lp)) }

/-- The last test of `add`. -/
def settle (s : StableEstimator) (id : Nat) : StableEstimator :=
  if s.est < 0 ∧ (s.vals id).enough E then { s with est := (s.vals id).lc } else s

/-- A message that passes the checks. -/
def count (s : StableEstimator) (m : ReplyStable) : StableEstimator :=
  (loop E m.id (toInt m.lc) (toInt m.lp) (s.oldLc m) (s.oldLp m)
    (List.range E.n) (s.lower m)).settle E m.id

def add (s : StableEstimator) (m : ReplyStable) (mine mac : Bool) : StableEstimator × Bool :=
  let s := if mine || m.verify P E mac then s.count E m else s
  (s, 0 ≤ s.est)

/-! ## What the loop does -/

variable {P E} {s : StableEstimator} {id i : Nat} {lc lp oc op : Int} {v val : Val}

@[simp] theorem passed_lc : (v.passed lc lp oc op).lc = v.lc := by
  simp only [Val.passed]
  split_ifs <;> rfl

@[simp] theorem passed_lp : (v.passed lc lp oc op).lp = v.lp := by
  simp only [Val.passed]
  split_ifs <;> rfl

theorem passed_lec :
    (v.passed lc lp oc op).lec = v.lec + if v.lc < oc ∧ lc ≤ v.lc then 1 else 0 := by
  simp only [Val.passed]
  split_ifs <;> rfl

theorem passed_gep : (v.passed lc lp oc op).gep =
    v.gep + (if op < v.lc ∧ v.lc ≤ lp then 1 else 0) + if lc ≤ v.lp then 1 else 0 := by
  by_cases h1 : v.lc < oc ∧ lc ≤ v.lc <;> by_cases h2 :
    op < v.lc ∧ v.lc ≤ lp <;> by_cases h3 : lc ≤ v.lp <;>
    simp [Val.passed, h1, h2, h3]

/-- The values once the loop has passed the replicas of `is`. -/
def passedVals (vals : Nat → Val) (id : Nat) (lc lp oc op : Int) (is : List Nat) : Nat → Val :=
  fun i =>
  if i = id then
    { vals id with lec := (vals id).lec + is.countP fun k => decide (k ≠ id ∧ (vals k).lc ≤ lc) }
  else if i ∈ is then (vals i).passed lc lp oc op else vals i

theorem passedVals_other (h : i ≠ id) (is : List Nat) : passedVals s.vals id lc lp oc op is i =
    if i ∈ is then (s.vals i).passed lc lp oc op else s.vals i := by simp [passedVals, h]

theorem passedVals_self (is : List Nat) : passedVals s.vals id lc lp oc op is id =
    { s.vals id with lec := (s.vals id).lec +
                       is.countP fun k => decide (k ≠ id ∧ (s.vals k).lc ≤ lc) } := by
  simp [passedVals]

/-- One more replica is passed. -/
theorem passedVals_cons {is : List Nat} (hi : i ∉ is) (hid : i ≠ id) :
    passedVals (Function.update (Function.update s.vals i ((s.vals i).passed lc lp oc op))
        id ((s.vals id).above (s.vals i) lc))
      id lc lp oc op is = passedVals s.vals id lc lp oc op (i :: is) := by
  funext k
  by_cases hk : k = id
  · subst hk
    have hcount : (is.countP fun j => decide (j ≠ k ∧
        (Function.update (Function.update s.vals i ((s.vals i).passed lc lp oc op))
          k ((s.vals k).above (s.vals i) lc) j).lc ≤ lc)) =
        is.countP fun j => decide (j ≠ k ∧ (s.vals j).lc ≤ lc) := List.countP_congr fun j hj => by
      have : j ≠ i := fun h => hi (h ▸ hj)
      by_cases hjk : j = k <;> simp [hjk, this]
    simp only [passedVals, Function.update_self, hcount, List.countP_cons]
    by_cases hle : (s.vals i).lc ≤ lc <;> simp [Val.above, hle, hid]
    omega
  · by_cases hki : k = i
    · subst hki
      simp [passedVals, hk, hi]
    · simp [passedVals, hk, hki]

/-- How the loop ends: it has passed `pre`, and has left at the last replica of it or passed all. -/
inductive LoopEnd (E : Env) (s : StableEstimator) (id : Nat) (lc lp oc op : Int)
    (pre suf : List Nat) (est : Int) : Prop
  | all (hsuf : suf = []) (hest : est = s.est) (h : ∀ i ∈ pre,
    i ≠ id → ((s.vals i).passed lc lp oc op).enough E = false)
  | left (ls : List Nat) (i : Nat) (hpre : pre = ls ++ [i])
    (hi : i ≠ id) (hv : ((s.vals i).passed lc lp oc op).enough E = true)
      (hest : est = (s.vals i).lc) (h : ∀ j ∈ ls, j ≠ id →
        ((s.vals j).passed lc lp oc op).enough E = false)

variable (E id lc lp oc op s) in
/-- **The loop** passes the replicas up to the first one, if any, whose value completes the
estimate. -/
theorem loop_spec (is : List Nat) (hnd : is.Nodup) : ∃ pre suf, is = pre ++ suf ∧
    (loop E id lc lp oc op is s).vals = passedVals s.vals id lc lp oc op pre ∧
    LoopEnd E s id lc lp oc op pre suf (loop E id lc lp oc op is s).est := by
  induction is generalizing s with
  | nil =>
    refine ⟨[], [], rfl, ?_, .all rfl rfl (by simp)⟩
    funext k
    by_cases hk : k = id <;> simp [loop, passedVals, hk]
  | cons i is ih =>
    obtain ⟨hi, hnd⟩ := List.nodup_cons.1 hnd
    rw [loop]
    by_cases hid : i = id
    · obtain ⟨pre, suf, rfl, hv, hend⟩ := ih (s := s) hnd
      have hip : i ∉ pre := fun h => hi (List.mem_append_left _ h)
      rw [if_pos hid]
      refine ⟨i :: pre, suf, rfl, ?_, ?_⟩
      · rw [hv]
        funext k
        by_cases hk : k = id <;> simp [passedVals, hk, hid]
      · cases hend with
        | all h1 h2 h3 => exact .all h1 h2 (List.forall_mem_cons.2 ⟨fun h => absurd hid h, h3⟩)
        | left ls j h1 h2 h3 h4 h5 =>
          exact .left (i :: ls) j (by rw [h1]; rfl) h2 h3
            h4 (List.forall_mem_cons.2 ⟨fun h => absurd hid h, h5⟩)
    · rw [if_neg hid]
      dsimp only
      split
      · -- the value of `i` completes the estimate: the loop leaves
        rename_i hdone
        refine ⟨[i], is, rfl, ?_, .left [] i rfl hid hdone (by simp) (by simp)⟩
        rw [← passedVals_cons (by simp) hid]
        funext k
        by_cases hk : k = id <;> simp [passedVals, hk]
      · rename_i hdone
        have hdone : ((s.vals i).passed lc lp oc op).enough E = false := by simpa using hdone
        obtain ⟨pre, suf, rfl, hv, hend⟩ :=
          ih (s := ⟨Function.update (Function.update s.vals i ((s.vals i).passed lc lp oc op)) id
          ((s.vals id).above (s.vals i) lc), s.est⟩) hnd
        have hip : i ∉ pre := fun h => hi (List.mem_append_left _ h)
        have hsame : ∀ j ∈ pre, j ≠ id →
          Function.update (Function.update s.vals i ((s.vals i).passed lc lp oc op)) id
            ((s.vals id).above (s.vals i) lc) j = s.vals j := fun j hj hjd => by
          have : j ≠ i := fun h => hip (h ▸ hj)
          simp [hjd, this]
        refine ⟨i :: pre, suf, rfl, by rw [hv, passedVals_cons hip hid], ?_⟩
        cases hend with
        | all h1 h2 h3 =>
          exact .all h1 h2 (List.forall_mem_cons.2 ⟨fun _ =>
            hdone, fun j hj hjd => by rw [← hsame j hj hjd]; exact h3 j hj hjd⟩)
        | left ls j h1 h2 h3 h4 h5 =>
          subst h1
          have hj := hsame j (by simp) h2
          refine .left (i :: ls) j rfl h2 (by rw [← hj]; exact h3) (by rw [← hj]; exact h4)
            (List.forall_mem_cons.2 ⟨fun _ => hdone, fun k hk hkd => ?_⟩)
          rw [← hsame k (List.mem_append_left _ hk) hkd]
          exact h5 k hk hkd

@[simp] theorem settle_vals : (s.settle E id).vals = s.vals := by
  unfold settle
  split <;> rfl

theorem settle_est : (s.settle E id).est = s.est ∨ (s.vals id).enough E = true ∧
    (s.settle E id).est = (s.vals id).lc := by
  unfold settle
  split
  · rename_i h
    exact .inr ⟨h.2, rfl⟩
  · exact .inl rfl

theorem lowered_lc : (val.lowered lc lp).lc = min val.lc lc := by
  by_cases h1 : lc < val.lc <;> by_cases h2 : val.lp < lp <;> simp [Val.lowered, h1, h2] <;> omega

theorem lowered_lp : (val.lowered lc lp).lp = max val.lp lp := by
  by_cases h1 : lc < val.lc <;> by_cases h2 : val.lp < lp <;> simp [Val.lowered, h1, h2] <;> omega

theorem lowered_lec : (val.lowered lc lp).lec = if lc < val.lc then 1 else val.lec := by
  simp only [Val.lowered]
  split_ifs <;> rfl

theorem lowered_gep : (val.lowered lc lp).gep = if lc < val.lc then 1 else val.gep := by
  simp only [Val.lowered]
  split_ifs <;> rfl

/-- What a message does to another replica's value that the loop passes. -/
abbrev pass (s : StableEstimator) (m : ReplyStable) (k : Nat) : Val :=
  (s.vals k).passed (toInt m.lc) (toInt m.lp) (s.oldLc m) (s.oldLp m)

/-- The estimator once a message has been counted; the loop has passed the replicas of `pre`, not
those of `suf`. -/
structure Passed (E : Env) (s : StableEstimator) (m : ReplyStable) (pre suf : List Nat) : Prop where
  range : List.range E.n = pre ++ suf
  other : ∀ k, k ≠ m.id → (s.count E m).vals k = if k ∈ pre then s.pass m k else s.vals k
  lc : ((s.count E m).vals m.id).lc = min (s.vals m.id).lc (toInt m.lc)
  lp : ((s.count E m).vals m.id).lp = max (s.vals m.id).lp (toInt m.lp)
  lec : ((s.count E m).vals m.id).lec = (if toInt m.lc < (s.vals m.id).lc then 1
    else (s.vals m.id).lec) +
    pre.countP fun k => decide (k ≠ m.id ∧ (s.vals k).lc ≤ toInt m.lc)
  gep : ((s.count E m).vals m.id).gep = if toInt m.lc < (s.vals m.id).lc then 1
    else (s.vals m.id).gep
  ends : (suf = [] ∧ ∀ i ∈ pre, i ≠ m.id → (s.pass m i).enough E = false) ∨
    ∃ ls i, pre = ls ++ [i] ∧ i ≠ m.id ∧ (s.pass m i).enough E = true ∧ ∀ j ∈ ls,
      j ≠ m.id → (s.pass m j).enough E = false
  est : (s.count E m).est = s.est ∨
    ∃ i, i < E.n ∧ ((s.count E m).vals i).enough E = true ∧
      (s.count E m).est = ((s.count E m).vals i).lc

theorem count_spec {m : ReplyStable} (hid : m.id < E.n) : ∃ pre suf, Passed E s m pre suf := by
  obtain ⟨pre, suf, happ, hv, hend⟩ :=
    loop_spec E (s.lower m) m.id (toInt m.lc) (toInt m.lp) (s.oldLc m) (s.oldLp m)
    (List.range E.n) List.nodup_range
  have hother : ∀ k, k ≠ m.id → (s.lower m).vals k = s.vals k := fun k hk => by simp [lower, hk]
  have hself : (s.lower m).vals m.id = (s.vals m.id).lowered (toInt m.lc) (toInt m.lp) := by
    simp [lower]
  have hvals : ∀ k, (s.count E m).vals k =
    passedVals (s.lower m).vals m.id (toInt m.lc) (toInt m.lp) (s.oldLc m) (s.oldLp m) pre k :=
    fun k => by rw [count, settle_vals, hv]
  have hcount : (pre.countP fun k => decide (k ≠ m.id ∧ ((s.lower m).vals k).lc ≤ toInt m.lc)) =
      pre.countP fun k => decide (k ≠ m.id ∧ (s.vals k).lc ≤ toInt m.lc) :=
        List.countP_congr fun k _ => by
    by_cases hk : k = m.id <;> simp [hk, hother]
  have hpass : ∀ k, k ≠ m.id → (s.count E m).vals k = if k ∈ pre then s.pass m k
    else s.vals k := fun k hk => by
    rw [hvals, passedVals_other hk, hother k hk]
  refine ⟨pre, suf, happ, hpass, ?_, ?_, ?_, ?_, ?_, ?_⟩
  · rw [hvals, passedVals_self, hself]
    exact lowered_lc
  · rw [hvals, passedVals_self, hself]
    exact lowered_lp
  · rw [hvals, passedVals_self, hself, ← hcount]
    exact congrArg (· + _) lowered_lec
  · rw [hvals, passedVals_self, hself]
    exact lowered_gep
  · cases hend with
    | all h1 h2 h3 =>
      refine .inl ⟨h1, fun i hi hne => ?_⟩
      have := h3 i hi hne
      rwa [hother i hne] at this
    | left ls i h1 h2 h3 h4 h5 =>
      rw [hother i h2] at h3
      refine .inr ⟨ls, i, h1, h2, h3, fun j hj hne => ?_⟩
      have := h5 j hj hne
      rwa [hother j hne] at this
  · set t :=
      loop E m.id (toInt m.lc) (toInt m.lp) (s.oldLc m) (s.oldLp m) (List.range E.n) (s.lower m)
    have hset : (t.settle E m.id).est = t.est ∨
        ((t.settle E m.id).vals m.id).enough E = true ∧
          (t.settle E m.id).est = ((t.settle E m.id).vals m.id).lc := by
      rw [settle_vals]
      exact settle_est
    rcases hset with h | ⟨h1, h2⟩
    · cases hend with
      | all _ h2 _ => exact .inl (h.trans h2)
      | left ls i h1 h2 h3 h4 _ =>
        rw [hother i h2] at h3 h4
        have hi : i ∈ pre := by rw [h1]; simp
        have hin : i < E.n := List.mem_range.1 (happ ▸ List.mem_append_left _ hi)
        have hvi := (hpass i h2).trans (if_pos hi)
        exact .inr ⟨i, hin, by rw [hvi]; exact h3, by rw [hvi, passed_lc]; exact h.trans h4⟩
    · exact .inr ⟨m.id, hid, h1, h2⟩

/-! ## What the values count -/

/-- `i` has sent a message. -/
def Sent (ms : List ReplyStable) (i : Nat) : Prop := ∃ m ∈ ms, m.id = i

/-- The number of distinct replicas that sent a message with `q`. -/
def reporters (n : Nat) (ms : List ReplyStable) (q : ReplyStable → Bool) : Nat :=
  (List.range n).countP fun k => ms.any fun m => m.id == k && q m

/-- What `i` has sent as `f`. -/
def reported (f : ReplyStable → Int) (ms : List ReplyStable) (i : Nat) : Set Int :=
  {x | ∃ m ∈ ms, m.id = i ∧ f m = x}

/-- `lc` and `lp` of a replica are the least checkpoint and the greatest prepared sequence number it
sent. -/
structure Tracked (s : StableEstimator) (ms : List ReplyStable) : Prop where
  lc : ∀ i, Sent ms i → IsLeast (reported ReplyStable.lc ms i) (s.vals i).lc
  lp : ∀ i, Sent ms i → IsGreatest (reported ReplyStable.lp ms i) (s.vals i).lp

/-- The estimator is exact about the messages `ms`, and its estimate is sound. -/
structure Exact (E : Env) (s : StableEstimator) (ms : List ReplyStable) :
    Prop extends Tracked s ms where
  lec : ∀ i, Sent ms i → (s.vals i).lec = reporters E.n ms fun m => m.lc ≤ (s.vals i).lc
  gep : ∀ i, Sent ms i → (s.vals i).gep = reporters E.n ms fun m => (s.vals i).lc ≤ m.lp
  est : 0 ≤ s.est → 2 * E.f + 1 ≤ reporters E.n ms (fun m => m.lc ≤ s.est) ∧
    E.f + 1 ≤ reporters E.n ms fun m => s.est ≤ m.lp

/-- What the values are like after any messages `ms`, exact or not. -/
structure Shape (E : Env) (s : StableEstimator) (ms : List ReplyStable) : Prop where
  ids : ∀ m ∈ ms, m.id < E.n
  ordered : ∀ m ∈ ms, m.lc ≤ m.lp
  value : ∀ i, Sent ms i → (s.vals i).lc < 2 ^ 31
  blank : ∀ i, ¬ Sent ms i → (s.vals i).lc = seqnoMax ∧ (s.vals i).lp = -1 ∧ (s.vals i).lec = 0
  lp : ∀ i, -1 ≤ (s.vals i).lp ∧ (s.vals i).lp < 2 ^ 31

variable {ms : List ReplyStable} {m : ReplyStable} {n k : Nat} {x : Int}

theorem sent_cons : Sent (m :: ms) i ↔ m.id = i ∨ Sent ms i := by simp [Sent]

/-- An entry with a value is one of a replica that has sent a message. -/
theorem Shape.sent_iff (h : Shape E s ms) : Sent ms i ↔ (s.vals i).lc ≠ seqnoMax := by
  constructor
  · intro hi he
    have := h.value i hi
    rw [he] at this
    exact absurd this (by decide)
  · intro hv
    by_contra hn
    exact hv (h.blank i hn).1

/-- **The stored values stand for the messages**: a replica reported a checkpoint up to `x` if its
`lc` is one. -/
theorem Shape.any_lc (h : Shape E s ms) (ht : Tracked s ms) (hx : x < seqnoMax) :
    (ms.any fun m => m.id == k && decide (m.lc ≤ x)) = decide ((s.vals k).lc ≤ x) := by
  rw [Bool.eq_iff_iff, List.any_eq_true, decide_eq_true_eq]
  simp only [Bool.and_eq_true, beq_iff_eq, decide_eq_true_eq]
  constructor
  · rintro ⟨m, hm, hk, hle⟩
    exact le_trans ((ht.lc k ⟨m, hm, hk⟩).2 ⟨m, hm, hk, rfl⟩) hle
  · intro hle
    have hs : Sent ms k := h.sent_iff.2 (by omega)
    obtain ⟨m, hm, hk, he⟩ := (ht.lc k hs).1
    exact ⟨m, hm, hk, by omega⟩

theorem Shape.any_lp (h : Shape E s ms) (ht : Tracked s ms) :
    (ms.any fun m => m.id == k && decide (x ≤ m.lp)) =
      decide ((s.vals k).lc ≠ seqnoMax ∧ x ≤ (s.vals k).lp) := by
  rw [Bool.eq_iff_iff, List.any_eq_true, decide_eq_true_eq]
  simp only [Bool.and_eq_true, beq_iff_eq, decide_eq_true_eq]
  constructor
  · rintro ⟨m, hm, hk, hle⟩
    exact ⟨h.sent_iff.1 ⟨m, hm, hk⟩, le_trans hle ((ht.lp k ⟨m, hm, hk⟩).2 ⟨m, hm, hk, rfl⟩)⟩
  · rintro ⟨hv, hle⟩
    obtain ⟨m, hm, hk, he⟩ := (ht.lp k (h.sent_iff.2 hv)).1
    exact ⟨m, hm, hk, by omega⟩

/-- The replicas but `id` with an `lc` up to `x`. -/
def otherLec (n : Nat) (vals : Nat → Val) (id : Nat) (x : Int) : Nat :=
  (List.range n).countP fun k => decide (k ≠ id ∧ (vals k).lc ≤ x)

/-- The replicas but `id` with a value and an `lp` from `x` on. -/
def otherGep (n : Nat) (vals : Nat → Val) (id : Nat) (x : Int) : Nat :=
  (List.range n).countP fun k => decide (k ≠ id ∧ (vals k).lc ≠ seqnoMax ∧ x ≤ (vals k).lp)

theorem Shape.reporters_lc (h : Shape E s ms) (ht : Tracked s ms) (hx : x < seqnoMax)
    (hid : id < E.n) :
    reporters E.n ms (fun m => m.lc ≤ x) = otherLec E.n s.vals id x +
      if (s.vals id).lc ≤ x then 1 else 0 := by
  rw [otherLec, reporters, Count.countP_insert (a := id)
    (P := fun k => decide (k ≠ id ∧ (s.vals k).lc ≤ x)) List.nodup_range
    (List.mem_range.2 hid) (by simp) (fun k hk => by simp [h.any_lc ht hx, hk])]
  simp [h.any_lc ht hx]

theorem Shape.reporters_lp (h : Shape E s ms) (ht : Tracked s ms) (hid : id < E.n) :
    reporters E.n ms (fun m => x ≤ m.lp) =
      otherGep E.n s.vals id x + if (s.vals id).lc ≠ seqnoMax ∧
        x ≤ (s.vals id).lp then 1 else 0 := by
  rw [otherGep, reporters, Count.countP_insert (a := id)
    (P := fun k => decide (k ≠ id ∧ (s.vals k).lc ≠ seqnoMax ∧ x ≤ (s.vals k).lp)) List.nodup_range
    (List.mem_range.2 hid) (by simp) (fun k hk => by simp only [h.any_lp ht]; simp [hk])]
  simp only [h.any_lp ht, decide_eq_true_eq]

/-! ## One message -/

/-- A message that a replica can send: `verify` has checked its sender and its order, and its fields
are 64-bit. -/
structure Sendable (E : Env) (m : ReplyStable) : Prop where
  id : m.id < E.n
  ordered : m.lc ≤ m.lp
  fits : m.lp ≤ seqnoMax

/-- Narrowing the fields of the message does not change the least `lc` and the greatest `lp` of its
sender. -/
structure Fits (s : StableEstimator) (m : ReplyStable) : Prop where
  lc : min (s.vals m.id).lc (toInt m.lc) = min (s.vals m.id).lc m.lc
  lp : max (s.vals m.id).lp (toInt m.lp) = max (s.vals m.id).lp m.lp
  first : (s.vals m.id).lc = seqnoMax → -1 ≤ m.lp

theorem count_lc_other (hid : m.id < E.n) (hk : k ≠ m.id) :
    ((s.count E m).vals k).lc = (s.vals k).lc := by
  obtain ⟨pre, suf, h⟩ := count_spec (s := s) hid
  rw [h.other k hk]
  split <;> simp

theorem count_lp_other (hid : m.id < E.n) (hk : k ≠ m.id) :
    ((s.count E m).vals k).lp = (s.vals k).lp := by
  obtain ⟨pre, suf, h⟩ := count_spec (s := s) hid
  rw [h.other k hk]
  split <;> simp

theorem Shape.lc_le (h : Shape E s ms) (i : Nat) : (s.vals i).lc ≤ seqnoMax := by
  by_cases hi : Sent ms i
  · have := h.value i hi
    unfold seqnoMax
    omega
  · exact (h.blank i hi).1.le

theorem Shape.oldLc_le (h : Shape E s ms) : s.oldLc m ≤ seqnoMax := by
  unfold oldLc
  split
  · exact h.lc_le _
  · exact le_rfl

/-- Counting a message keeps the shape. -/
theorem Shape.count (h : Shape E s ms) (hm : Sendable E m) : Shape E (s.count E m) (m :: ms) := by
  obtain ⟨pre, suf, hp⟩ := count_spec (s := s) hm.id
  refine ⟨?_, ?_, fun i hi => ?_, fun i hi => ?_, fun i => ?_⟩
  · exact List.forall_mem_cons.2 ⟨hm.id, h.ids⟩
  · exact List.forall_mem_cons.2 ⟨hm.ordered, h.ordered⟩
  · by_cases hid : i = m.id
    · subst hid
      rw [hp.lc]
      exact lt_of_le_of_lt (min_le_right _ _) (toInt_lt _)
    · rw [count_lc_other hm.id hid]
      exact h.value i ((sent_cons.1 hi).resolve_left (Ne.symm hid))
  · rw [sent_cons, not_or] at hi
    have hid : i ≠ m.id := fun he => hi.1 he.symm
    obtain ⟨h1, h2, h3⟩ := h.blank i hi.2
    rw [hp.other i hid]
    split
    · refine ⟨by simp [h1], by simp [h2], ?_⟩
      have := h.oldLc_le (m := m)
      rw [passed_lec, h3, h1, if_neg (by omega)]
    · exact ⟨h1, h2, h3⟩
  · by_cases hid : i = m.id
    · subst hid
      have := h.lp m.id
      rw [hp.lp]
      exact ⟨this.1.trans (le_max_left _ _), max_lt this.2 (toInt_lt _)⟩
    · rw [count_lp_other hm.id hid]
      exact h.lp i

theorem reported_cons_self {f : ReplyStable → Int} :
    reported f (m :: ms) m.id = insert (f m) (reported f ms m.id) := by
  ext x
  simp [reported, eq_comm]

theorem reported_cons_other {f : ReplyStable → Int} (h : k ≠ m.id) :
    reported f (m :: ms) k = reported f ms k := by
  ext x
  simp [reported, Ne.symm h]

theorem reported_empty {f : ReplyStable → Int} (h : ¬ Sent ms k) : reported f ms k = ∅ := by
  ext x
  simp only [reported, Set.mem_ofPred_eq, Set.mem_empty_iff_false, iff_false]
  rintro ⟨m, hm, hk, -⟩
  exact h ⟨m, hm, hk⟩

theorem Tracked.isLeast (ht : Tracked s ms) (h : Shape E s ms) (hm : Sendable E m) :
    IsLeast (reported ReplyStable.lc (m :: ms) m.id) (min (s.vals m.id).lc m.lc) := by
  rw [reported_cons_self, min_comm]
  by_cases hi : Sent ms m.id
  · exact (ht.lc _ hi).insert _
  · have := hm.ordered
    have := hm.fits
    rw [reported_empty hi, (h.blank _ hi).1, min_eq_left (by omega), insert_empty_eq]
    exact isLeast_singleton

theorem Tracked.isGreatest (ht : Tracked s ms) (h : Shape E s ms) :
    IsGreatest (reported ReplyStable.lp (m :: ms) m.id) (if (s.vals m.id).lc = seqnoMax then m.lp
        else max (s.vals m.id).lp m.lp) := by
  rw [reported_cons_self]
  split
  · rename_i hv
    have hi : ¬ Sent ms m.id := fun hi => h.sent_iff.1 hi hv
    rw [reported_empty hi, insert_empty_eq]
    exact isGreatest_singleton
  · rename_i hv
    rw [max_comm]
    exact (ht.lp _ (h.sent_iff.2 hv)).insert _

/-- The message is taken in right exactly when its narrowed fields do. -/
theorem tracked_iff (h : Shape E s ms) (ht : Tracked s ms) (hm : Sendable E m) :
    Tracked (s.count E m) (m :: ms) ↔ Fits s m := by
  obtain ⟨pre, suf, hp⟩ := count_spec (s := s) hm.id
  have hself : Sent (m :: ms) m.id := sent_cons.2 (.inl rfl)
  constructor
  · intro ht'
    have h1 := (ht'.lc _ hself).unique (ht.isLeast h hm)
    have h2 := (ht'.lp _ hself).unique (ht.isGreatest h)
    rw [hp.lc] at h1
    rw [hp.lp] at h2
    split at h2
    · rename_i hv
      have hlp := (h.blank _ fun hi => h.sent_iff.1 hi hv).2.1
      exact ⟨h1, by omega, fun _ => by omega⟩
    · rename_i hv
      exact ⟨h1, h2, fun hv' => absurd hv' hv⟩
  · intro hf
    refine ⟨fun i hi => ?_, fun i hi => ?_⟩
    · by_cases hid : i = m.id
      · subst hid
        rw [hp.lc, hf.lc]
        exact ht.isLeast h hm
      · rw [reported_cons_other hid, count_lc_other hm.id hid]
        exact ht.lc i ((sent_cons.1 hi).resolve_left (Ne.symm hid))
    · by_cases hid : i = m.id
      · subst hid
        have hg := ht.isGreatest (m := m) h
        rw [hp.lp, hf.lp]
        split at hg
        · rename_i hv
          have hlp := (h.blank _ fun hi => h.sent_iff.1 hi hv).2.1
          have := hf.first hv
          rwa [hlp, max_eq_right this]
        · exact hg
      · rw [reported_cons_other hid, count_lp_other hm.id hid]
        exact ht.lp i ((sent_cons.1 hi).resolve_left (Ne.symm hid))

/-- The value of another replica that has sent a message. -/
def Other (E : Env) (s : StableEstimator) (m : ReplyStable) (i : Nat) : Prop :=
  i < E.n ∧ i ≠ m.id ∧ (s.vals i).lc ≠ seqnoMax

/-- The message raises the `lp` of its sender, as seen from `vals[i]`: an `lc` below zero is below
any `lp`, and a sender's first report passes over it. -/
def Raises (s : StableEstimator) (m : ReplyStable) (i : Nat) : Prop :=
  if (s.vals m.id).lc = seqnoMax then
    0 ≤ (s.vals i).lc else (s.vals m.id).lp < toInt m.lp ∨ (s.vals i).lc < 0

instance (i : Nat) : Decidable (Raises s m i) := 
  inferInstanceAs (Decidable (if (s.vals m.id).lc = seqnoMax then 0 ≤ (s.vals i).lc
    else (s.vals m.id).lp < toInt m.lp ∨ (s.vals i).lc < 0))

/-- `vals[i]` has enough reports with the one of the message. -/
def Ready (E : Env) (s : StableEstimator) (m : ReplyStable) (i : Nat) : Prop :=
  2 * E.f + 1 ≤ (s.vals i).lec ∧ E.f + 1 ≤ (s.vals i).gep +
    if (s.vals m.id).lp < (s.vals i).lc then 1 else 0

instance (i : Nat) : Decidable (Ready E s m i) := inferInstanceAs (Decidable (_ ∧ _))

/-- The message is counted right although others have sent one: it lowers the `lc` of its sender to
one above every `lp` of the others, it raises the `lp` of its sender (checkpoints below zero apart),
and the loop does not leave before it has passed the others: no value is followed by another one
when it has enough reports. -/
structure Apart (E : Env) (s : StableEstimator) (m : ReplyStable) : Prop where
  lowers : toInt m.lc < (s.vals m.id).lc
  above : ∀ i, Other E s m i → (s.vals i).lp < toInt m.lc
  raises : ∀ i, Other E s m i →
    Raises s m i
  stays : ∀ i j, Other E s m i → Other E s m j → i < j → ¬ Ready E s m i

section Step

variable (h : Shape E s ms) (hx : Exact E s ms) (hm : Sendable E m) (hf : Fits s m)
    {pre suf : List Nat}
  (hp : Passed E s m pre suf)

include hf in
theorem Fits.lc_eq (hlow : toInt m.lc < (s.vals m.id).lc) : toInt m.lc = m.lc := by
  have := hf.lc
  omega

include h hm hf in
/-- The narrowed fields of a message that lowers `lc` are in order, too. -/
theorem Fits.le (hlow : toInt m.lc < (s.vals m.id).lc) : toInt m.lc ≤ toInt m.lp := by
  have h1 := hf.lc_eq hlow
  have h2 := hf.lp
  have h3 := hm.ordered
  have h4 := (h.lp m.id).2
  have h5 := le_toInt m.lc
  by_cases hr : (s.vals m.id).lp < toInt m.lp
  · omega
  · rw [toInt_eq_self (x := m.lp) (by omega) (by omega)]
    omega

include h hx in
theorem Shape.lc_le_lp (hi : Sent ms i) : (s.vals i).lc ≤ (s.vals i).lp := by
  obtain ⟨m, hm, hid, hlc⟩ := (hx.lc i hi).1
  have h1 := h.ordered m hm
  have h2 := (hx.lp i hi).2 ⟨m, hm, hid, rfl⟩
  omega

include hm in
theorem otherLec_count (x : Int) :
    otherLec E.n (s.count E m).vals m.id x = otherLec E.n s.vals m.id x :=
  List.countP_congr fun k _ => by
    by_cases hk : k = m.id
    · simp [hk]
    · simp [hk, count_lc_other hm.id hk]

include hm in
theorem otherGep_count (x : Int) :
    otherGep E.n (s.count E m).vals m.id x = otherGep E.n s.vals m.id x :=
  List.countP_congr fun k _ => by
    by_cases hk : k = m.id
    · simp [hk]
    · simp [hk, count_lc_other hm.id hk, count_lp_other hm.id hk]

include h hx hm hf hp in
/-- The reports of a checkpoint up to `x` after the message. -/
theorem reporters_lc_count (hxm : x < seqnoMax) : reporters E.n (m :: ms) (fun m => m.lc ≤ x) =
    otherLec E.n s.vals m.id x + if min (s.vals m.id).lc (toInt m.lc) ≤ x then 1 else 0 := by
  rw [(h.count hm).reporters_lc ((tracked_iff h hx.toTracked hm).2 hf) hxm hm.id,
    otherLec_count hm, hp.lc]

include h hx hm hf hp in
theorem reporters_lp_count : reporters E.n (m :: ms) (fun m => x ≤ m.lp) =
    otherGep E.n s.vals m.id x + if x ≤ max (s.vals m.id).lp (toInt m.lp) then 1 else 0 := by
  have hs := (h.count hm).sent_iff.1 (sent_cons.2 (.inl rfl : m.id = m.id ∨ Sent ms m.id))
  rw [(h.count hm).reporters_lp ((tracked_iff h hx.toTracked hm).2 hf) hm.id,
    otherGep_count hm, hp.lp]
  simp [hs]

include h hx hm hf hp

/-- A value that the loop passes counts the reports of checkpoints right. -/
theorem lec_passed_iff (hi : Other E s m i) (hpre : i ∈ pre) :
    ((s.count E m).vals i).lec = reporters E.n (m :: ms)
      (fun r => r.lc ≤ ((s.count E m).vals i).lc) ↔
      toInt m.lc < (s.vals m.id).lc ∨ (s.vals i).lc < toInt m.lc := by
  have hs := h.sent_iff.2 hi.2.2
  have hlt : (s.vals i).lc < seqnoMax := lt_of_le_of_ne (h.lc_le i) hi.2.2
  rw [count_lc_other hm.id hi.2.1, reporters_lc_count h hx hm hf hp hlt,
    hp.other i hi.2.1, if_pos hpre, passed_lec,
    hx.lec i hs, h.reporters_lc hx.toTracked hlt hm.id, oldLc]
  by_cases hlow : toInt m.lc < (s.vals m.id).lc
  · rw [if_pos hlow, min_eq_right hlow.le]
    split_ifs <;> omega
  · rw [if_neg hlow, min_eq_left (by omega)]
    split_ifs <;> omega

/-- ... and those of prepared requests. -/
theorem gep_passed_iff (hi : Other E s m i) (hpre : i ∈ pre) (hlow : toInt m.lc < (s.vals m.id).lc)
    (habove : (s.vals i).lp < toInt m.lc) :
    ((s.count E m).vals i).gep = reporters E.n (m :: ms)
      (fun r => ((s.count E m).vals i).lc ≤ r.lp) ↔
      Raises s m i := by
  have hs := h.sent_iff.2 hi.2.2
  have hle := h.lc_le_lp hx hs
  have hfit := hf.le h hm hlow
  have hlp := (h.lp m.id).1
  rw [count_lc_other hm.id hi.2.1, reporters_lp_count h hx hm hf hp,
    hp.other i hi.2.1, if_pos hpre, passed_gep,
    hx.gep i hs, h.reporters_lp hx.toTracked hm.id, oldLp, Raises]
  by_cases hv : (s.vals m.id).lc = seqnoMax
  · have hblank := (h.blank m.id fun hi => h.sent_iff.1 hi hv).2.1
    simp only [hv, hblank]
    split_ifs <;> omega
  · split_ifs <;> simp_all <;> omega

/-- The value of the sender, if the message lowers it, counts right if the loop has passed every
`lc` up to the new one and no other replica has an `lp` from it on. -/
theorem self_lowered_iff (hlow : toInt m.lc < (s.vals m.id).lc) :
    (((s.count E m).vals m.id).lec =
        reporters E.n (m :: ms) (fun r => r.lc ≤ ((s.count E m).vals m.id).lc) ∧
      ((s.count E m).vals m.id).gep =
        reporters E.n (m :: ms) (fun r => ((s.count E m).vals m.id).lc ≤ r.lp)) ↔
    (suf.countP fun k => decide (k ≠ m.id ∧ (s.vals k).lc ≤ toInt m.lc)) = 0 ∧
      otherGep E.n s.vals m.id (toInt m.lc) = 0 := by
  have hlt := toInt_lt m.lc
  have hmax : toInt m.lc < seqnoMax := by
    unfold seqnoMax
    omega
  have hle := (hf.le h hm hlow).trans (le_max_right (s.vals m.id).lp (toInt m.lp))
  have hsplit : otherLec E.n s.vals m.id (toInt m.lc) =
    (pre.countP fun k => decide (k ≠ m.id ∧ (s.vals k).lc ≤ toInt m.lc)) +
      suf.countP fun k => decide (k ≠ m.id ∧ (s.vals k).lc ≤ toInt m.lc) := by
    rw [otherLec, hp.range, List.countP_append]
  rw [hp.lc, min_eq_right hlow.le, reporters_lc_count h hx hm hf hp hmax,
    reporters_lp_count h hx hm hf hp, hp.lec, hp.gep,
    if_pos hlow, if_pos hlow, if_pos (min_le_right _ _), if_pos hle, hsplit]
  omega

/-- A message that does not lower the `lc` of its sender leaves its counters alone only if no
replica that the loop has passed has an `lc` up to that of the message. -/
theorem self_kept_iff (hlow : ¬ toInt m.lc < (s.vals m.id).lc) :
    (((s.count E m).vals m.id).lec =
        reporters E.n (m :: ms) (fun r => r.lc ≤ ((s.count E m).vals m.id).lc) ∧
      ((s.count E m).vals m.id).gep =
        reporters E.n (m :: ms) (fun r => ((s.count E m).vals m.id).lc ≤ r.lp)) ↔
    (pre.countP fun k => decide (k ≠ m.id ∧ (s.vals k).lc ≤ toInt m.lc)) = 0 := by
  have hlt := toInt_lt m.lc
  have hmax : (s.vals m.id).lc < seqnoMax := by
    unfold seqnoMax
    omega
  have hs := h.sent_iff.2 hmax.ne
  have hle := h.lc_le_lp hx hs
  have hle' := hle.trans (le_max_left (s.vals m.id).lp (toInt m.lp))
  rw [hp.lc, min_eq_left (by omega), reporters_lc_count h hx hm hf hp hmax,
    reporters_lp_count h hx hm hf hp, hp.lec, hp.gep,
    if_neg hlow, if_neg hlow, hx.lec _ hs, hx.gep _ hs,
      h.reporters_lc hx.toTracked hmax hm.id, h.reporters_lp hx.toTracked hm.id,
    if_pos le_rfl, if_pos (show (s.vals m.id).lc ≠ seqnoMax ∧ _ from ⟨hmax.ne, hle⟩),
      if_pos (min_le_left _ _), if_pos hle']
  omega

omit h hx hm hf in
theorem lt_of_mem_range (hi : i ∈ pre) : i < E.n :=
  List.mem_range.1 (hp.range ▸ List.mem_append_left _ hi)

omit h hx hm hf in
/-- The loop passes the replicas in order. -/
theorem pre_lt_suf {j : Nat} (hi : i ∈ pre) (hj : j ∈ suf) : i < j := by
  have hpair := List.pairwise_lt_range (n := E.n)
  rw [hp.range] at hpair
  exact (List.pairwise_append.1 hpair).2.2 i hi j hj

omit hp in
/-- Below a message that is counted right, a value has enough reports if it had with the
sender's. -/
theorem pass_enough_iff (hi : Other E s m i) (hlow : toInt m.lc < (s.vals m.id).lc)
    (habove : (s.vals i).lp < toInt m.lc) (hraises : Raises s m i) :
    (s.pass m i).enough E = true ↔ Ready E s m i := by
  have hle := h.lc_le_lp hx (h.sent_iff.2 hi.2.2)
  have hfit := hf.le h hm hlow
  have hlp := (h.lp m.id).1
  have hone : (s.oldLp m < (s.vals i).lc ∧ (s.vals i).lc ≤ toInt m.lp) ↔
    (s.vals m.id).lp < (s.vals i).lc := by
    unfold oldLp
    by_cases hr : (s.vals m.id).lp < toInt m.lp
    · rw [if_pos hr]
      omega
    · rw [if_neg hr]
      unfold Raises at hraises
      split at hraises
      · rename_i hv
        have := (h.blank m.id fun hi => h.sent_iff.1 hi hv).2.1
        omega
      · omega
  simp only [Ready, Val.enough, Bool.and_eq_true, decide_eq_true_eq, passed_lec, passed_gep, hone]
  rw [if_neg (by omega : ¬ ((s.vals i).lc < s.oldLc m ∧ toInt m.lc ≤ (s.vals i).lc)),
    if_neg (by omega : ¬ toInt m.lc ≤ (s.vals i).lp)]
  omega

omit hx hm hf in
/-- The value that the loop leaves at has enough reports, so its replica has sent a message. -/
theorem other_of_enough (hi : i ∈ pre) (hne : i ≠ m.id) (henough : (s.pass m i).enough E = true) :
    Other E s m i := by
  refine ⟨lt_of_mem_range hp hi, hne, fun hv => ?_⟩
  have hblank := (h.blank i fun hs => h.sent_iff.1 hs hv).2.2
  have hold := h.oldLc_le (m := m)
  simp only [Val.enough, Bool.and_eq_true, decide_eq_true_eq, passed_lec, hblank, hv] at henough
  rw [if_neg (by omega)] at henough
  omega

omit hx hm hf in
/-- If another replica has a value, the loop passes one that has. -/
theorem exists_passed (hi : Other E s m i) : ∃ j ∈ pre, Other E s m j := by
  rcases hp.ends with ⟨hsuf, -⟩ | ⟨ls, j, hpre, hj, henough, -⟩
  · have hrange := hp.range
    rw [hsuf, List.append_nil] at hrange
    exact ⟨i, hrange ▸ List.mem_range.2 hi.1, hi⟩
  · have hmem : j ∈ pre := by rw [hpre]; simp
    exact ⟨j, hmem, other_of_enough h hp hmem hj henough⟩

/-- The loop passes all the other values if the message stands apart. -/
theorem Apart.passed (ha : Apart E s m) (hi : Other E s m i) : i ∈ pre := by
  have hmem : i ∈ pre ++ suf := hp.range ▸ List.mem_range.2 hi.1
  refine (List.mem_append.1 hmem).resolve_right fun hsuf => ?_
  rcases hp.ends with ⟨h0, -⟩ | ⟨ls, j, hj, hne, henough, -⟩
  · rw [h0] at hsuf
    cases hsuf
  · have hjpre : j ∈ pre := by rw [hj]; simp
    have hjo := other_of_enough h hp hjpre hne henough
    exact ha.stays j i hjo hi (pre_lt_suf hp hjpre hsuf)
      ((pass_enough_iff h hx hm hf hjo ha.lowers (ha.above j hjo) (ha.raises j hjo)).1 henough)

omit h hx hm hf in
/-- A replica that the loop passes before another one does not stop it. -/
theorem not_enough_of_lt {j : Nat} (hi : i ∈ pre) (hne : i ≠ m.id) (hj : j ∈ pre) (hlt : i < j) :
    (s.pass m i).enough E = false := by
  rcases hp.ends with ⟨-, hall⟩ | ⟨ls, l, hpre, -, -, hls⟩
  · exact hall i hi hne
  · have hpair := List.pairwise_lt_range (n := E.n)
    rw [hp.range, hpre] at hpair
    have hlast := (List.pairwise_append.1 (List.pairwise_append.1 hpair).1).2.2
    rw [hpre, List.mem_append, List.mem_singleton] at hi hj
    refine hls i (hi.resolve_right ?_) hne
    rintro rfl
    rcases hj with hj | rfl
    · have := hlast j hj i (by simp)
      omega
    · omega

/-- **What a message does to the counters.** After it, every value with a report counts the reports
right exactly when no other replica has sent one or the message stands apart. -/
theorem counters_iff : (∀ i, Sent (m :: ms) i →
      ((s.count E m).vals i).lec =
        reporters E.n (m :: ms) (fun r => r.lc ≤ ((s.count E m).vals i).lc) ∧
      ((s.count E m).vals i).gep =
        reporters E.n (m :: ms) (fun r => ((s.count E m).vals i).lc ≤ r.lp)) ↔
    (∀ i, ¬ Other E s m i) ∨ Apart E s m := by
  have hself : Sent (m :: ms) m.id := sent_cons.2 (.inl rfl)
  have hsend : ∀ i, Other E s m i → Sent (m :: ms) i :=
    fun i hi => sent_cons.2 (.inr (h.sent_iff.2 hi.2.2))
  have hother : ∀ i, Sent (m :: ms) i → i ≠ m.id → Other E s m i := fun i hi hne => by
    have hs := (sent_cons.1 hi).resolve_left (Ne.symm hne)
    obtain ⟨r, hr, rfl⟩ := hs
    exact ⟨h.ids r hr, hne, h.sent_iff.1 ⟨r, hr, rfl⟩⟩
  constructor
  · intro hall
    by_cases hnone : ∀ i, ¬ Other E s m i
    · exact .inl hnone
    obtain ⟨i0, hi0⟩ := not_forall_not.1 hnone
    obtain ⟨j, hj, hjo⟩ := exists_passed h hp hi0
    -- a repeated report is counted at the value `j`, or by the sender's own counter
    have hlow : toInt m.lc < (s.vals m.id).lc := by
      by_contra hlow
      have h1 :=
        ((lec_passed_iff h hx hm hf hp hjo hj).1 (hall j (hsend j hjo)).1).resolve_left hlow
      have h2 := (self_kept_iff h hx hm hf hp hlow).1 (hall m.id hself)
      rw [List.countP_eq_zero] at h2
      exact h2 j hj (by simpa using ⟨hjo.2.1, h1.le⟩)
    obtain ⟨h1, h2⟩ := (self_lowered_iff h hx hm hf hp hlow).1 (hall m.id hself)
    have habove : ∀ i, Other E s m i → (s.vals i).lp < toInt m.lc := fun i hi => by
      rw [otherGep, List.countP_eq_zero] at h2
      have := h2 i (List.mem_range.2 hi.1)
      simp only [decide_eq_true_eq, not_and] at this
      have := this hi.2.1 hi.2.2
      omega
    have hpassed : ∀ i, Other E s m i → i ∈ pre := fun i hi => by
      have hmem : i ∈ pre ++ suf := hp.range ▸ List.mem_range.2 hi.1
      refine (List.mem_append.1 hmem).resolve_right fun hsuf => ?_
      rw [List.countP_eq_zero] at h1
      have h3 := habove i hi
      have h4 := h.lc_le_lp hx (h.sent_iff.2 hi.2.2)
      exact h1 i hsuf (by simpa using ⟨hi.2.1, by omega⟩)
    have hraises : ∀ i, Other E s m i →
        Raises s m i := fun i hi =>
      (gep_passed_iff h hx hm hf hp hi (hpassed i hi) hlow (habove i hi)).1 (hall i (hsend i hi)).2
    refine .inr ⟨hlow, habove, hraises, fun i j hi hj hlt henough => ?_⟩
    have := (pass_enough_iff h hx hm hf hi hlow (habove i hi) (hraises i hi)).2 henough
    rw [not_enough_of_lt hp (hpassed i hi) hi.2.1 (hpassed j hj) hlt] at this
    cases this
  · rintro (hnone | ha) i hi
    · have hid : i = m.id := by
        by_contra hne
        exact hnone i (hother i hi hne)
      have hlc : ∀ k, k ∈ pre ∨ k ∈ suf → ¬ (k ≠ m.id ∧ (s.vals k).lc ≤ toInt m.lc) :=
        fun k hk hkl => by
        have := toInt_lt m.lc
        have hkn : k < E.n := List.mem_range.1 (hp.range ▸ List.mem_append.2 hk)
        exact hnone k ⟨hkn, hkl.1, by unfold seqnoMax; omega⟩
      rw [hid]
      by_cases hlow : toInt m.lc < (s.vals m.id).lc
      · refine (self_lowered_iff h hx hm hf hp hlow).2 ⟨?_, ?_⟩
        · exact List.countP_eq_zero.2 fun k hk => by simpa using hlc k (.inr hk)
        · exact List.countP_eq_zero.2 fun k hk hkl => by
            obtain ⟨h1, h2, -⟩ := of_decide_eq_true hkl
            exact hnone k ⟨List.mem_range.1 hk, h1, h2⟩
      · refine (self_kept_iff h hx hm hf hp hlow).2 ?_
        exact List.countP_eq_zero.2 fun k hk => by simpa using hlc k (.inl hk)
    · by_cases hid : i = m.id
      · rw [hid]
        refine (self_lowered_iff h hx hm hf hp ha.lowers).2 ⟨?_, ?_⟩
        · refine List.countP_eq_zero.2 fun k hk hkl => ?_
          obtain ⟨h1, h2⟩ := of_decide_eq_true hkl
          have := toInt_lt m.lc
          have hko : Other E s m k :=
            ⟨List.mem_range.1 (hp.range ▸ List.mem_append_right _ hk),
              h1, by unfold seqnoMax; omega⟩
          exact lt_irrefl k (pre_lt_suf hp (ha.passed h hx hm hf hp hko) hk)
        · refine List.countP_eq_zero.2 fun k hk hkl => ?_
          obtain ⟨h1, h2, h3⟩ := of_decide_eq_true hkl
          have := ha.above k ⟨List.mem_range.1 hk, h1, h2⟩
          omega
      · have ho := hother i hi hid
        have hpre := ha.passed h hx hm hf hp ho
        exact ⟨(lec_passed_iff h hx hm hf hp ho hpre).2 (.inl ha.lowers),
          (gep_passed_iff h hx hm hf hp ho hpre ha.lowers (ha.above i ho)).2 (ha.raises i ho)⟩

end Step

/-- The message is counted right. -/
structure Counts (E : Env) (s : StableEstimator) (m : ReplyStable) : Prop where
  fits : Fits s m
  others : (∀ i, ¬ Other E s m i) ∨ Apart E s m

section Decide

instance (i : Nat) : Decidable (Other E s m i) := inferInstanceAs (Decidable (_ ∧ _ ∧ _))

instance {p : Nat → Prop} [DecidablePred p] : Decidable (∀ i, Other E s m i → p i) :=
  decidable_of_iff (∀ i, i < E.n → Other E s m i →
    p i) ⟨fun h i hi => h i hi.1 hi, fun h i _ hi => h i hi⟩

instance : Decidable (Fits s m) :=
  decidable_of_iff (min (s.vals m.id).lc (toInt m.lc) = min (s.vals m.id).lc m.lc ∧
    max (s.vals m.id).lp (toInt m.lp) = max (s.vals m.id).lp m.lp ∧
      ((s.vals m.id).lc = seqnoMax → -1 ≤ m.lp))
    ⟨fun h => ⟨h.1, h.2.1, h.2.2⟩, fun h => ⟨h.lc, h.lp, h.first⟩⟩

instance : Decidable (Apart E s m) :=
  decidable_of_iff (toInt m.lc < (s.vals m.id).lc ∧
    (∀ i, Other E s m i → (s.vals i).lp < toInt m.lc) ∧
    (∀ i, Other E s m i → Raises s m i) ∧ ∀ i, Other E s m i → ∀ j,
      Other E s m j → i < j → ¬ Ready E s m i)
    ⟨fun h => ⟨h.1, h.2.1, h.2.2.1, fun i j hi hj => h.2.2.2 i hi j hj⟩,
      fun h => ⟨h.lowers, h.above, h.raises, fun i hi j hj => h.stays i j hi hj⟩⟩

instance : Decidable (Counts E s m) :=
  decidable_of_iff (Fits s m ∧ ((∀ i, Other E s m i → False) ∨ Apart E s m))
    ⟨fun h => ⟨h.1, h.2⟩, fun h => ⟨h.fits, h.others⟩⟩

end Decide

theorem reporters_mono {q : ReplyStable → Bool} : reporters n ms q ≤ reporters n (m :: ms) q :=
  List.countP_mono_left fun k _ hk => by
    simp only [List.any_cons, Bool.or_eq_true]
    exact .inr hk

/-- A completed estimate is sound if the counters are right. -/
theorem est_sound (h : Shape E s ms) (hx : Exact E s ms) (hm : Sendable E m)
    (hc : ∀ i, Sent (m :: ms) i →
      ((s.count E m).vals i).lec =
        reporters E.n (m :: ms) (fun r => r.lc ≤ ((s.count E m).vals i).lc) ∧
      ((s.count E m).vals i).gep =
        reporters E.n (m :: ms) (fun r => ((s.count E m).vals i).lc ≤ r.lp))
    (he : 0 ≤ (s.count E m).est) :
    2 * E.f + 1 ≤ reporters E.n (m :: ms) (fun r => r.lc ≤ (s.count E m).est) ∧
      E.f + 1 ≤ reporters E.n (m :: ms) (fun r => (s.count E m).est ≤ r.lp) := by
  obtain ⟨pre, suf, hp⟩ := count_spec (s := s) hm.id
  rcases hp.est with hest | ⟨i, -, henough, hest⟩
  · rw [hest] at he ⊢
    exact ⟨(hx.est he).1.trans reporters_mono, (hx.est he).2.trans reporters_mono⟩
  · simp only [Val.enough, Bool.and_eq_true, decide_eq_true_eq] at henough
    have hi : Sent (m :: ms) i := by
      by_contra hn
      have := ((h.count hm).blank i hn).2.2
      omega
    obtain ⟨h1, h2⟩ := hc i hi
    rw [hest, ← h1, ← h2]
    exact henough

/-- **One message** keeps the estimator exact if and only if it is counted right. -/
theorem exact_iff (h : Shape E s ms) (hx : Exact E s ms) (hm : Sendable E m) :
    Exact E (s.count E m) (m :: ms) ↔ Counts E s m := by
  obtain ⟨pre, suf, hp⟩ := count_spec (s := s) hm.id
  constructor
  · intro hx'
    have hf := (tracked_iff h hx.toTracked hm).1 hx'.toTracked
    exact ⟨hf, (counters_iff h hx hm hf hp).1 fun i hi => ⟨hx'.lec i hi, hx'.gep i hi⟩⟩
  · rintro ⟨hf, ho⟩
    have hc := (counters_iff h hx hm hf hp).2 ho
    exact ⟨(tracked_iff h hx.toTracked hm).2 hf,
      fun i hi => (hc i hi).1, fun i hi => (hc i hi).2, est_sound h hx hm hc⟩

/-! ## Runs -/

/-- A call of `add`; `mac`: the message carries the right MAC. -/
structure Call where
  m : ReplyStable
  mine : Bool
  mac : Bool

variable (P E) in
def Call.counted (c : Call) : Bool := c.mine || c.m.verify P E c.mac

variable (P E) in
/-- The estimator with the messages it has counted since it was cleared. -/
def step (s : StableEstimator × List ReplyStable) (c : Call) :
    Option (StableEstimator × List ReplyStable) :=
  some ((s.1.add P E c.m c.mine c.mac).1, if c.counted P E then c.m :: s.2 else s.2)

variable (P E) in
/-- Fields are 64-bit, and the replica's own message is one that others accept. -/
def Valid (_ : StableEstimator × List ReplyStable) (c : Call) : Prop :=
  c.m.lp ≤ seqnoMax ∧ (c.mine = true → c.m.wellFormed P E = true)

variable (P E) in
/-- A message that is counted is counted right. -/
def Right (s : StableEstimator × List ReplyStable) (c : Call) : Prop :=
  c.counted P E = true → Counts E s.1 c.m

instance (t : StableEstimator × List ReplyStable) (c : Call) : Decidable (Valid P E t c) :=
  inferInstanceAs (Decidable (_ ∧ _))

instance (t : StableEstimator × List ReplyStable) (c : Call) : Decidable (Right P E t c) :=
  inferInstanceAs (Decidable (_ → _))

theorem sendable_of_counted {c : Call} {s : StableEstimator × List ReplyStable} (hv : Valid P E s c)
    (hc : c.counted P E = true) :
    Sendable E c.m := by
  have hw : c.m.wellFormed P E = true := by
    rcases Bool.or_eq_true_iff.1 hc with h | h
    · exact hv.2 h
    · simp only [ReplyStable.verify, Bool.and_eq_true] at h
      exact h.1.1
  simp only [ReplyStable.wellFormed, Env.isReplica, Bool.and_eq_true,
    Bool.not_eq_true', Bool.or_eq_false_iff,
    decide_eq_true_eq, decide_eq_false_iff_not] at hw
  exact ⟨hw.1, by omega, hv.1⟩

theorem step_counted {c : Call} {s : StableEstimator × List ReplyStable}
    (hc : c.counted P E = true) :
    step P E s c = some (s.1.count E c.m, c.m :: s.2) := by
  have hc' : (c.mine || c.m.verify P E c.mac) = true := hc
  simp [step, add, hc, hc']

theorem step_dropped {c : Call} {s : StableEstimator × List ReplyStable}
    (hc : c.counted P E = false) : step P E s c = some s := by
  have hc' : (c.mine || c.m.verify P E c.mac) = false := hc
  simp [step, add, hc, hc']

theorem shape_init : Shape E init [] :=
  ⟨by simp, by simp, fun _ hi => by simp [Sent] at hi,
    fun _ _ => ⟨rfl, rfl, rfl⟩, fun _ => by simp [init, Val.clear]⟩

theorem exact_init : Exact E init [] :=
  ⟨⟨fun _ hi => by simp [Sent] at hi, fun _ hi => by simp [Sent] at hi⟩,
    fun _ hi => by simp [Sent] at hi,
    fun _ hi => by simp [Sent] at hi, fun he => absurd he (by decide)⟩

/-- `clear` discards all messages. -/
theorem clear_eq_init : s.clear = init := rfl

/-- **The estimator.** Whatever messages are added since it was cleared, it is exact about the ones
it has counted in every state if and only if each of them is counted right. -/
theorem run_exact {cs : List Call} (hv : Run.Meets (step P E) (Valid P E) (s.clear, []) cs) :
    Run.Throughout (step P E) (fun t => Exact E t.1 t.2) (s.clear, []) cs ↔
      Run.Meets (step P E) (Right P E) (s.clear, []) cs := by
  rw [clear_eq_init] at hv ⊢
  refine Run.throughout_iff (J := fun t => Shape E t.1 t.2)
    (fun t c t' hj hv hs => ?_) (fun t c hj hx hv => ?_) shape_init exact_init hv
  · by_cases hc : c.counted P E = true
    · rw [step_counted hc] at hs
      cases hs
      exact hj.count (sendable_of_counted hv hc)
    · rw [step_dropped (by simpa using hc)] at hs
      cases hs
      exact hj
  · by_cases hc : c.counted P E = true
    · simp only [step_counted hc, Option.some.injEq, forall_eq', Right, hc, forall_const]
      exact exact_iff hj hx (sendable_of_counted hv hc)
    · simp only [step_dropped (by simpa using hc : c.counted P E = false),
        Option.some.injEq, forall_eq', Right]
      exact ⟨fun _ h => absurd h hc, fun _ => hx⟩

/-- Four replicas report one after the other, each above the ones before: the estimate is the third
checkpoint. -/
theorem run_exact_ascending :
    Run.Throughout (step .default ⟨4, 1, 0, true⟩) (fun t => Exact ⟨4, 1, 0, true⟩ t.1 t.2)
      (init.clear, [])
      [⟨⟨0, 5, 0, 7, 32⟩, true, false⟩, ⟨⟨128, 130, 1, 7, 32⟩, false, true⟩,
          ⟨⟨256, 256, 2, 7, 32⟩, false, true⟩,
        ⟨⟨384, 390, 3, 7, 32⟩, false, true⟩] :=
  (run_exact (by decide)).2 (by decide)

/-- Replica 1 sends its report twice: the estimate is complete with the reports of two replicas of
four. -/
theorem estimate_unsound :
    ¬ Run.Throughout (step .default ⟨4, 1, 0, true⟩) (fun t => Exact ⟨4, 1, 0, true⟩ t.1 t.2)
      (init.clear, [])
      [⟨⟨0, 0, 0, 7, 32⟩, true, false⟩, ⟨⟨0, 0, 1, 7, 32⟩, false, true⟩,
          ⟨⟨0, 0, 1, 7, 32⟩, false, true⟩] := by
  rintro ⟨-, -, h⟩
  obtain ⟨-, h⟩ := h _ rfl
  obtain ⟨h, -⟩ := h _ rfl
  exact absurd ((h _ rfl).est (by decide)).1 (by decide)

end StableEstimator

end TinyBFT
