import TinyBFT.NewView
import TinyBFT.Principal

/-!
# The bytes of a new-view (`New_view.cc`, `New_view.h`, `special_region.cc`)

Behind the header of 32 bytes lie a digest for each replica and a byte for each pick, then the
authenticator.

| here | there |
| --- | --- |
| `view`, `min`, `max` | fields of `New_view_rep` (`New_view.h:20-24`) |
| `vcOffset`, `pickOffset` | `vc_info()`, `picked()` (`New_view.h:154-162`) |
| `checkPicks`, `verify` | `verify` (`New_view.cc:96-113`) |
| `viewChange`, `whichPicked` | `view_change`, `which_picked` (`New_view.cc:85-94`, `New_view.h:170-173`) |
| `persist`            | `store_new_view` (`special_region.cc:117-124`): `size()` bytes are copied over an older message |
| `Capacity`           | what has to fit into `max_new_view_size` |

`verify` compares the length that follows from `min`, `max` and the number of replicas with
`Max_message_size`, not with `size()`. And the block of a new-view has room for `max_out` picks,
where `set_max`, `pick` and `verify` let through one more.
-/

namespace TinyBFT

namespace NewViewBytes

open Reads Wire

section

variable (mem : Memory) (n : Nat)

def view : Int := seqno mem 8

def min : Int := seqno mem 16

def max : Int := seqno mem 24

def vcOffset (i : Int) : Int := 32 + 32 * i

def pickOffset (i : Int) : Int := 32 + 32 * n + i

/-- A pick is a `char`. -/
def pick (i : Int) : Int := Bytes.toInt (mem.slice (pickOffset n i) 1)

/-- `is_zero()` of the digest looks at its first word. -/
def hasDigest (i : Int) : Bool := Bytes.toNat (mem.slice (vcOffset i) 4) != 0

/-- The number of picks. -/
def picks : Nat := (max mem - min mem).toNat

end

/-- The loop of `verify` over the picks from `i` on, as many as are left. -/
def checkPicks (n : Nat) : Nat → Int → Reads Bool
  | 0, _ => pure true
  | k + 1, i => do
    let c ← bytes (pickOffset n i) 1
    if ¬ (0 ≤ Bytes.toInt c ∧ Bytes.toInt c < n) then pure false
    else do
      let d ← bytes (vcOffset (Bytes.toInt c)) 4
      if Bytes.toNat d = 0 then pure false else checkPicks n k (i + 1)

variable (hmac : List UInt8 → List UInt8 → Digest) (N : Node)

/-- The ranges that `set_max` and `verify` ask for. -/
def Allowed (P : Params) (min max : Int) : Prop := 0 ≤ min ∧ min ≤ max ∧ max - min ≤ P.maxOut + 1

instance (P : Params) (min max : Int) : Decidable (Allowed P min max) :=
  inferInstanceAs (Decidable (_ ∧ _ ∧ _))

/-- `verify` once it has read the header. -/
def verifyFor (v min max : Int) : Reads Bool :=
  if ¬ (0 < v ∧ Allowed N.P min max) then pure false
  else do
    let ok ← checkPicks N.numReplicas (max - min).toNat 0
    if ok = false then pure false
    else if unsigned64 (N.P.maxMessageSize - NewView.oldSize N.numReplicas (max - min)) <
      N.authSize (N.primary v) then pure false
    else
      N.verifyAuthIn hmac (N.primary v) 0 (NewView.oldSize N.numReplicas (max - min)).toNat
        (NewView.oldSize N.numReplicas (max - min))

def verify : Reads Bool := do
  let v ← bytes 8 8
  let min ← bytes 16 8
  let max ← bytes 24 8
  verifyFor hmac N (Bytes.toInt v) (Bytes.toInt min) (Bytes.toInt max)

section

variable (mem stale : Memory)

def viewChange (i : Int) : Option (List UInt8) :=
  if 0 ≤ i ∧ i < N.numReplicas ∧ hasDigest mem i = true then
    some (mem.slice (vcOffset i) 32) else none

def whichPicked (k : Int) : Int := pick mem N.numReplicas (k - min mem)

/-- The block of the primary, which held `stale`, once the message has been copied. The assertion of
`store_new_view`, which stops a message larger than the block, is left out: `Capacity` is about what
fits. -/
def persist : Memory := fun a => if 0 ≤ a ∧ a < size mem then mem a else stale a

/-- `size_wo_MAC`: the authenticated part. -/
def oldSize : Int := NewView.oldSize N.numReplicas (max mem - min mem)

/-- The copy answers what is asked of a new-view as the message does. -/
structure SameAnswers (mem' : Memory) : Prop where
  min : min mem' = min mem
  max : max mem' = max mem
  viewChange : ∀ i, viewChange N mem' i = viewChange N mem i
  whichPicked : ∀ k, NewViewBytes.min mem ≤ k → k < NewViewBytes.max mem →
    whichPicked N mem' k = whichPicked N mem k

/-- **What it means that a new-view is verified as received**: the check reads the message only, and
what it accepts has all its parts in the message, so that a copy of the message is as good. -/
structure AsReceived : Prop where
  reads : (verify hmac N).Within mem 0 (size mem)
  whole : (verify hmac N).run mem = true →
    oldSize N mem + N.authSize (N.primary (view mem)) ≤ size mem
  copy : (verify hmac N).run mem = true → ∀ stale, SameAnswers N mem (persist mem stale)

/-- A pick of a replica whose view-change is in the message. -/
def pickOk (i : Int) : Bool :=
  decide (0 ≤ pick mem N.numReplicas i ∧ pick mem N.numReplicas i < N.numReplicas) &&
    hasDigest mem (pick mem N.numReplicas i)

def headerOk : Bool := decide (0 < view mem ∧ Allowed N.P (min mem) (max mem))

def picksOk : Bool := (List.range (picks mem)).all fun i => pickOk N mem i

/-- The comparison with the largest message. -/
def roomy : Bool :=
  decide (N.authSize (N.primary (view mem)) ≤ unsigned64 (N.P.maxMessageSize - oldSize N mem))

def macOk : Bool :=
  (N.verifyAuthIn hmac (N.primary (view mem)) 0 (oldSize N mem).toNat (oldSize N mem)).run mem

/-- The message is as long as the check looks at it: up to the first pick that is refused; up to the
code for this replica, if the picks are right and its key is known; and to the end of the
authenticator, if that is right. -/
structure LongEnough : Prop where
  pick : headerOk N mem = true → ∀ i < picks mem, (∀ j < i, pickOk N mem j = true) →
    pickOffset N.numReplicas i + 1 ≤ size mem
  mac : headerOk N mem = true → picksOk N mem = true → roomy N mem = true →
    N.Keyed (N.primary (view mem)) →
    oldSize N mem + N.macOffset (N.primary (view mem)) + 32 ≤ size mem
  whole : headerOk N mem = true → picksOk N mem = true →
    roomy N mem = true → macOk hmac N mem = true →
    oldSize N mem + N.authSize (N.primary (view mem)) ≤ size mem

end

variable {hmac N} {mem stale : Memory} {n k : Nat} {i lo hi : Int}

/-! ## One call -/

theorem run_checkPicks :
    (checkPicks N.numReplicas k i).run mem = true ↔ ∀ j < k, pickOk N mem (i + j) = true := by
  induction k generalizing i with
  | zero => simp [checkPicks]
  | succ k ih =>
    have hsplit : (∀ j < k + 1, pickOk N mem (i + j) = true) ↔
      pickOk N mem i = true ∧ ∀ j < k, pickOk N mem (i + 1 + j) = true := by
      constructor
      · intro h
        refine ⟨by simpa using h 0 (by omega), fun j hj => ?_⟩
        have := h (j + 1) (by omega)
        rwa [show i + 1 + (j : Int) = i + ((j + 1 : Nat) : Int) by push_cast; ring]
      · rintro ⟨h0, h⟩ j hj
        cases j with
        | zero => simpa using h0
        | succ j =>
          have := h j (by omega)
          rwa [show i + ((j + 1 : Nat) : Int) = i + 1 + (j : Int) by push_cast; ring]
    rw [hsplit, ← ih, checkPicks, run_bytes_bind]
    have hp : pickOk N mem i = (decide (0 ≤ Bytes.toInt (mem.slice (pickOffset N.numReplicas i) 1) ∧
        Bytes.toInt (mem.slice (pickOffset N.numReplicas i) 1) < N.numReplicas) &&
        (Bytes.toNat (mem.slice (vcOffset (Bytes.toInt (mem.slice (pickOffset N.numReplicas i) 1)))
          4) != 0)) := rfl
    generalize Bytes.toInt (mem.slice (pickOffset N.numReplicas i) 1) = c at hp ⊢
    by_cases hc : 0 ≤ c ∧ c < N.numReplicas
    · rw [if_neg (not_not.2 hc), run_bytes_bind]
      by_cases hd : Bytes.toNat (mem.slice (vcOffset c) 4) = 0
      · simp [hp, hd]
      · rw [if_neg hd]
        simp [hp, hd, hc]
    · rw [if_pos hc]
      simp [hp, hc]

/-- The picks are read one after the other, up to the first that is refused; the digests lie in
front of them. -/
theorem within_checkPicks (h0 : 0 ≤ i) : (checkPicks N.numReplicas k i).Within mem 0 hi ↔
    ∀ j < k, (∀ l < j, pickOk N mem (i + l) = true) →
      pickOffset N.numReplicas (i + j) + 1 ≤ hi := by
  induction k generalizing i with
  | zero => simp [checkPicks]
  | succ k ih =>
    have hp : pickOk N mem i = (decide (0 ≤ Bytes.toInt (mem.slice (pickOffset N.numReplicas i) 1) ∧
        Bytes.toInt (mem.slice (pickOffset N.numReplicas i) 1) < N.numReplicas) &&
        (Bytes.toNat (mem.slice (vcOffset (Bytes.toInt (mem.slice (pickOffset N.numReplicas i) 1)))
          4) != 0)) := rfl
    have hsplit : (∀ j < k + 1, (∀ l < j, pickOk N mem (i + l) = true) →
      pickOffset N.numReplicas (i + j) + 1 ≤ hi) ↔
        pickOffset N.numReplicas i + 1 ≤ hi ∧ (pickOk N mem i = true →
          ∀ j < k, (∀ l < j, pickOk N mem (i + 1 + l) = true) →
            pickOffset N.numReplicas (i + 1 + j) + 1 ≤ hi) := by
      have hcast : ∀ j : Nat, i + ((j + 1 : Nat) : Int) = i + 1 + (j : Int) :=
        fun j => by push_cast; ring
      constructor
      · intro h
        refine ⟨by simpa using h 0 (by omega) (by simp), fun hok j hj hl => ?_⟩
        rw [← hcast]
        refine h (j + 1) (by omega) fun l hl' => ?_
        cases l with
        | zero => simpa using hok
        | succ l => rw [hcast]; exact hl l (by omega)
      · rintro ⟨h1, h2⟩ j hj hl
        cases j with
        | zero => simpa using h1
        | succ j =>
          rw [hcast]
          refine h2 (by simpa using hl 0 (by omega)) j (by omega) fun l hl' => ?_
          rw [← hcast]
          exact hl (l + 1) (by omega)
    rw [hsplit, ← ih (by omega), checkPicks, within_bytes_bind]
    have hoff : ∀ c : Int, 0 ≤ c → c < N.numReplicas → pickOffset N.numReplicas i + 1 ≤ hi →
      0 ≤ vcOffset c ∧ vcOffset c + 4 ≤ hi := by
      intro c h1 h2 h3
      unfold pickOffset at h3
      unfold vcOffset
      omega
    have hpos : 0 ≤ pickOffset N.numReplicas i := by
      unfold pickOffset
      omega
    generalize Bytes.toInt (mem.slice (pickOffset N.numReplicas i) 1) = c at hp ⊢
    by_cases hc : 0 ≤ c ∧ c < N.numReplicas
    · rw [if_neg (not_not.2 hc), within_bytes_bind]
      by_cases hd : Bytes.toNat (mem.slice (vcOffset c) 4) = 0
      · rw [if_pos hd]
        constructor
        · rintro ⟨h1, -⟩
          exact ⟨(h1 (by omega)).2, fun hok => by simp [hp, hd] at hok⟩
        · rintro ⟨h1, -⟩
          exact ⟨fun _ => ⟨hpos, h1⟩, fun _ => hoff c hc.1 hc.2 h1, within_pure⟩
      · rw [if_neg hd]
        constructor
        · rintro ⟨h1, -, h2⟩
          exact ⟨(h1 (by omega)).2, fun _ => h2⟩
        · rintro ⟨h1, h2⟩
          exact ⟨fun _ => ⟨hpos, h1⟩, fun _ => hoff c hc.1 hc.2 h1, h2 (by simp [hp, hd, hc])⟩
    · rw [if_pos hc]
      constructor
      · rintro ⟨h1, -⟩
        exact ⟨(h1 (by omega)).2, fun hok => absurd hok (by simp [hp, hc])⟩
      · rintro ⟨h1, -⟩
        exact ⟨fun _ => ⟨hpos, h1⟩, within_pure⟩

theorem picksOk_iff : picksOk N mem = true ↔ ∀ j < picks mem, pickOk N mem j = true := by
  simp [picksOk, List.all_eq_true]

theorem run_checkPicks_picks :
    (checkPicks N.numReplicas (picks mem) 0).run mem = picksOk N mem := by
  rw [Bool.eq_iff_iff, picksOk_iff, run_checkPicks]
  simp

theorem roomy_iff : roomy N mem = true ↔
    ¬ unsigned64 (N.P.maxMessageSize - NewView.oldSize N.numReplicas (max mem - min mem)) <
      N.authSize (N.primary (view mem)) := by
  unfold roomy
  rw [decide_eq_true_iff]
  exact not_lt.symm

theorem run_verify : (verify hmac N).run mem =
    (headerOk N mem && picksOk N mem && roomy N mem && macOk hmac N mem) := by
  unfold verify
  rw [run_bytes_bind, run_bytes_bind, run_bytes_bind]
  show (verifyFor hmac N (view mem) (min mem) (max mem)).run mem = _
  unfold verifyFor
  by_cases hh : 0 < view mem ∧ Allowed N.P (min mem) (max mem)
  · rw [if_neg (not_not.2 hh), run_bind]
    show run mem (if (checkPicks N.numReplicas (picks mem) 0).run mem = false then _ else _) = _
    rw [run_checkPicks_picks]
    by_cases hp : picksOk N mem = true
    · rw [if_neg (by simp [hp])]
      by_cases hr : roomy N mem = true
      · rw [if_neg (roomy_iff.1 hr)]
        simp [headerOk, hh, hp, hr, macOk, oldSize]
      · rw [if_pos (not_not.1 fun hn => hr (roomy_iff.2 hn))]
        simp [hr]
    · rw [if_pos (by simpa using hp)]
      simp [hp]
  · rw [if_pos hh]
    simp [headerOk, hh]

theorem oldSize_nonneg (h : headerOk N mem = true) : 0 ≤ oldSize N mem := by
  have h := (of_decide_eq_true h).2
  unfold Allowed at h
  unfold oldSize NewView.oldSize
  omega

theorem within_verify (hsize : 32 ≤ size mem) : (verify hmac N).Within mem 0 (size mem) ↔
    (headerOk N mem = true → (∀ i < picks mem, (∀ j < i, pickOk N mem j = true) →
          pickOffset N.numReplicas i + 1 ≤ size mem) ∧
      (picksOk N mem = true → roomy N mem = true →
        (N.verifyAuthIn hmac (N.primary (view mem)) 0 (oldSize N mem).toNat (oldSize N mem)).Within
          mem 0 (size mem))) := by
  have hhead : (verify hmac N).Within mem 0 (size mem) ↔
    (verifyFor hmac N (view mem) (min mem) (max mem)).Within mem 0 (size mem) := by
    unfold verify
    rw [within_bytes_bind, within_bytes_bind, within_bytes_bind]
    exact ⟨fun h => h.2.2.2, fun h => ⟨fun _ => by omega, fun _ => by omega, fun _ => by omega, h⟩⟩
  rw [hhead]
  unfold verifyFor
  by_cases hh : 0 < view mem ∧ Allowed N.P (min mem) (max mem)
  · have hh' : headerOk N mem = true := decide_eq_true hh
    rw [if_neg (not_not.2 hh), within_bind]
    show (checkPicks N.numReplicas (picks mem) 0).Within mem 0 (size mem) ∧
      (if (checkPicks N.numReplicas (picks mem) 0).run mem = false then _
        else _ : Reads Bool).Within mem 0 (size mem) ↔ _
    rw [run_checkPicks_picks, within_checkPicks le_rfl]
    simp only [hh', forall_const, Int.zero_add]
    refine and_congr_right fun _ => ?_
    by_cases hp : picksOk N mem = true
    · rw [if_neg (by simp [hp])]
      by_cases hr : roomy N mem = true
      · rw [if_neg (roomy_iff.1 hr)]
        simp [hp, hr, oldSize]
      · rw [if_pos (not_not.1 fun hn => hr (roomy_iff.2 hn))]
        simp [hr]
    · rw [if_pos (by simpa using hp)]
      simp [hp]
  · rw [if_pos hh]
    have hh' : headerOk N mem = false := decide_eq_false hh
    simp [hh']

/-! ## A new-view as it was received -/

/-- With all its parts in the message, a copy answers as the message does. -/
theorem sameAnswers_persist (hsize : 32 ≤ size mem) (hh : headerOk N mem = true)
    (h : oldSize N mem ≤ size mem) (stale : Memory) :
    SameAnswers N mem (persist mem stale) := by
  have hrange := (of_decide_eq_true hh).2
  unfold Allowed at hrange
  unfold oldSize NewView.oldSize at h
  have hslice : ∀ (a : Int) (len : Nat), 0 ≤ a → a + len ≤ size mem →
    (persist mem stale).slice a len = mem.slice a len := by
    intro a len h0 h1
    refine Memory.slice_congr fun x hx hx' => ?_
    unfold persist
    rw [if_pos (by omega)]
  have hmin : min (persist mem stale) = min mem :=
    congrArg Bytes.toInt (hslice 16 8 (by omega) (by omega))
  have hmax : max (persist mem stale) = max mem :=
    congrArg Bytes.toInt (hslice 24 8 (by omega) (by omega))
  refine ⟨hmin, hmax, fun i => ?_, fun k h1 h2 => ?_⟩
  · unfold viewChange
    by_cases hi : 0 ≤ i ∧ i < N.numReplicas
    · have hoff : 0 ≤ vcOffset i ∧ vcOffset i + 32 ≤ size mem := by
        unfold vcOffset
        omega
      have hd : hasDigest (persist mem stale) i = hasDigest mem i :=
        congrArg (fun bs => Bytes.toNat bs != 0) (hslice (vcOffset i) 4 (by omega) (by omega))
      rw [hd, hslice (vcOffset i) 32 (by omega) (by omega)]
    · rw [if_neg fun h => hi ⟨h.1, h.2.1⟩, if_neg fun h => hi ⟨h.1, h.2.1⟩]
  · unfold whichPicked pick
    rw [hmin]
    have hoff : 0 ≤ pickOffset N.numReplicas (k - min mem) ∧
      pickOffset N.numReplicas (k - min mem) + (1 : Nat) ≤ size mem := by
      unfold pickOffset
      omega
    rw [hslice _ 1 hoff.1 hoff.2]

/-- **`New_view::verify`** looks at the message only, and stores what it has looked at, exactly when
the message is as long as that. -/
theorem verify_asReceived_iff {P : Params} (h : Received mem P 9 32) (hid : N.id < N.numReplicas) :
    AsReceived hmac N mem ↔ LongEnough hmac N mem := by
  have hsize := h.spec.2.1
  constructor
  · intro ha
    have hr := (within_verify hsize).1 ha.reads
    refine ⟨fun hh => (hr hh).1, fun hh hp hroom hk => ?_, fun hh hp hroom hm => ?_⟩
    · exact (((within_verifyAuthIn hmac).1 ((hr hh).2 hp hroom)) hk).2.2
    · exact ha.whole (by rw [run_verify]; simp [hh, hp, hroom, hm])
  · intro hl
    have hacc : (verify hmac N).run mem = true → headerOk N mem = true ∧
        oldSize N mem + N.authSize (N.primary (view mem)) ≤ size mem := by
      intro hacc
      rw [run_verify] at hacc
      simp only [Bool.and_eq_true] at hacc
      obtain ⟨⟨⟨hh, hp⟩, hroom⟩, hm⟩ := hacc
      exact ⟨hh, hl.whole hh hp hroom hm⟩
    refine ⟨(within_verify hsize).2 fun hh => ⟨hl.pick hh, fun hp hroom => ?_⟩,
      fun hv => (hacc hv).2, fun hv stale => ?_⟩
    · refine (within_verifyAuthIn hmac).2 fun hk => ?_
      have h0 := oldSize_nonneg hh
      have hb := N.macOffset_bounds hid _ hk
      have hm := hl.mac hh hp hroom hk
      exact ⟨fun _ => by omega, by omega, hm⟩
    · obtain ⟨hh, hle⟩ := hacc hv
      exact sameAnswers_persist hsize hh (by omega) stale

/-- Replica 0 of four. -/
def replicaZero : Node where
  P := .default
  id := 0
  numReplicas := 4
  numPrincipals := 4
  principals _ := ⟨⟨256, PublicKey.rsa2048_le, fun _ _ => true, fun _ _ => none⟩, some [], [], 0⟩
  v := 0
  curPrimary := 0
  replicas_pos := Node.four_pos
  replicas_le := Node.four_le

/-- The new-view for view 1 from checkpoint 0 on, without picks; replica 0 has a view-change in
it. -/
def noPicks (size : UInt8 × UInt8) : Memory := Memory.ofBytes
  ([9, 0, 0, 0, size.1, size.2, 0, 0] ++ [1, 0, 0, 0, 0, 0, 0, 0] ++ List.replicate 16 0 ++ [1])
    fun _ => 0

theorem noPicks_asReceived : AsReceived (fun _ _ => 0) replicaZero (noPicks (0, 1)) :=
  (verify_asReceived_iff (P := .default) (by decide) (by decide)).2
    ⟨fun _ i hi => absurd hi (by decide +revert),
      fun _ _ _ _ => by decide, fun _ _ _ _ => by decide⟩

/-- **A new-view that ends behind its header**: the digests and the authenticator follow in the
datagram. It is accepted, and its copy does not have the view-change of replica 0 any more. -/
theorem truncated_accepted : Received (noPicks (32, 0)) .default 9 32 ∧
    (verify (fun _ _ => 0) replicaZero).run (noPicks (32, 0)) = true ∧
    viewChange replicaZero (persist (noPicks (32, 0)) fun _ => 0) 0 ≠
      viewChange replicaZero (noPicks (32, 0)) 0 ∧
    ¬ AsReceived (fun _ _ => 0) replicaZero (noPicks (32, 0)) := by
  have hacc : (verify (fun _ _ => 0) replicaZero).run (noPicks (32, 0)) = true := by decide +kernel
  refine ⟨by decide, hacc, by decide +kernel, fun h => ?_⟩
  exact absurd (h.whole hacc) (by decide)

/-! ## Room for a new-view -/

/-- What has to fit for `n` replicas: all picks that `pick` lets through lie in the block, the
authenticated message does, and `re_authenticate` sees this. -/
structure Capacity (P : Params) (n : Nat) (min max : Int) : Prop where
  picks : ∀ k, min ≤ k → k ≤ min + P.maxOut → pickOffset n (k - min) + 1 ≤ P.maxNewViewSize
  message : alignedSize (NewView.oldSize n (max - min) + ((n - 1) * 32 : Nat)).toNat ≤
    P.maxNewViewSize
  check : NewView.sizeCheck P n (max - min) = true

/-- **The block of a new-view is large enough** for `n` replicas and the picks from `min` to `max`
exactly when there are fewer replicas than the build allows or, with more than one, the picks fill
at most the window. -/
theorem capacity_iff {P : Params} {n : Nat} {min max : Int} (hn : 0 < n)
    (hle : n ≤ P.maxNumReplicas) (h : Allowed P min max) :
    Capacity P n min max ↔ n < P.maxNumReplicas ∨ 1 < n ∧
      alignedSize (max - min).toNat ≤ P.maxOut := by
  obtain ⟨h0, h1, h2⟩ := h
  have hlt := P.maxOut_lt
  have hcap : P.maxNewViewSize = 32 + P.maxNumReplicas *
    32 + P.maxOut + 32 * (P.maxNumReplicas - 1) := rfl
  have hold : NewView.oldSize n (max - min) = 32 + 32 * n + (max - min) := rfl
  have hmsg : (NewView.oldSize n (max - min) + ((n - 1) * 32 : Nat)).toNat =
    64 * n + (max - min).toNat := by omega
  have hal : alignedSize (64 * n + (max - min).toNat) = 64 * n + alignedSize (max - min).toNat := by
    unfold alignedSize
    omega
  have hd := le_alignedSize (max - min).toNat
  have hd' := alignedSize_lt (max - min).toNat
  constructor
  · rintro ⟨hp, hm, -⟩
    rw [hmsg, hal] at hm
    rcases Nat.lt_or_eq_of_le hle with hlt | heq
    · exact .inl hlt
    · refine .inr ⟨?_, by omega⟩
      -- one replica, and room for `max_out` picks only
      by_contra hone
      have := hp (min + P.maxOut) (by omega) le_rfl
      unfold pickOffset at this
      omega
  · intro hc
    have hroom : 32 + 32 * n + (max - min) + (n - 1 : Nat) * 32 ≤ P.maxNewViewSize := by omega
    refine ⟨fun k hk hk' => ?_, by rw [hmsg, hal]; omega, ?_⟩
    · unfold pickOffset
      omega
    · unfold NewView.sizeCheck
      rw [decide_eq_true_iff, hold]
      have := P.viewChange_fits
      have := P.maxMessageSize_le
      have hu : (unsigned64 (P.maxNewViewSize - (32 + 32 * n + (max - min))) : Int) =
        P.maxNewViewSize - (32 + 32 * n + (max - min)) :=
        unsigned64_of_nonneg (by omega) (by omega)
      omega

/-- What the checks of the protocol let through is in the ranges. -/
theorem allowed_of_setMax {cfg : Cfg} {m m' : NewView} {max : Int}
    (h : m.setMax cfg max = some m') : Allowed cfg.P m'.min m'.max := by
  unfold NewView.setMax at h
  split at h
  · obtain rfl := Option.some.inj h
    assumption
  · cases h

theorem allowed_of_wellFormed {cfg : Cfg} {m : NewView} (h : m.wellFormed cfg = true) :
    Allowed cfg.P m.min m.max := by
  simp only [NewView.wellFormed, Bool.and_eq_true, decide_eq_true_eq] at h
  exact ⟨h.1.2.1, h.1.2.2.2.1, h.1.2.2.2.2⟩

/-- Room for the new-views that a correct replica builds, in a build for just its number of
replicas: those that pick no more than the window. -/
theorem reAuthenticate_iff {cfg : Cfg} {m : NewView} (h : Allowed cfg.P m.min m.max)
    (hf : 0 < cfg.f) :
    m.reAuthenticate cfg = true ↔ cfg.n < cfg.P.maxNumReplicas ∨ m.max - m.min ≤ cfg.P.maxOut := by
  have hn : cfg.n = 3 * cfg.f + 1 := rfl
  have hle := cfg.n_le
  have hfits := cfg.P.viewChange_fits
  have hmax := cfg.P.maxMessageSize_le
  have hcap : cfg.P.maxNewViewSize = 32 + cfg.P.maxNumReplicas *
    32 + cfg.P.maxOut + 32 * (cfg.P.maxNumReplicas - 1) := rfl
  obtain ⟨h0, h1, h2⟩ := h
  have hu : (unsigned64 (cfg.P.maxNewViewSize - (32 + 32 * cfg.n + (m.max - m.min))) : Int) =
      cfg.P.maxNewViewSize - (32 + 32 * cfg.n + (m.max - m.min)) :=
        unsigned64_of_nonneg (by omega) (by omega)
  unfold NewView.reAuthenticate NewView.sizeCheck NewView.oldSize
  rw [decide_eq_true_iff]
  omega

theorem capacity_default : Capacity .default 4 0 257 :=
  (capacity_iff (by decide) (by decide) (by decide)).2 (.inl (by decide))

/-- **One pick too many**: four replicas in a build for four, and a new-view that carries over a
request for every sequence number of the window and the checkpoint. `set_max` takes the range, and
the assertion of `re_authenticate` fails. -/
theorem fullWindow_refused : (do
      let m ← (NewView.new 1).setMin 0
      let m ← m.setMax Replica.fourReplicas 5
      pure (m.reAuthenticate Replica.fourReplicas) : Option Bool) = some false ∧
    Allowed Replica.fourReplicas.P 0 5 ∧
      ¬ Capacity Replica.fourReplicas.P Replica.fourReplicas.n 0 5 := by
  refine ⟨by decide, by decide, fun h => ?_⟩
  exact absurd h.check (by decide)

end NewViewBytes

end TinyBFT
