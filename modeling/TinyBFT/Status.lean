import TinyBFT.Certificate
import TinyBFT.Lib.Bits

/-!
# `Status` messages (`Status.h`, `Status.cc`)

A replica with the new-view message of its view reports what it prepared and committed above its
last executed batch, in two bitmaps. Without it, it reports the view-changes that it has and the
pre-prepares that it misses.

| here | there |
| --- | --- |
| `PPInfo`         | `PP_info` (`Status.h:22-27`), 24 bytes |
| `Status`         | `Status_rep` (`Status.h:31-53`), 40 bytes; `bytes` is what follows it and `pps` the array in it |
| `toShort`        | a value assigned to a `short` |
| `new`            | the constructor (`Status.cc:12-32`), in a block that holds `mem` |
| `mark`, `test`   | `Status.h:246-255` |
| `Call`, `call`   | `mark_prepared`, `mark_committed` (`Status.h:257-265`), `mark_vcs`, `append_pps` (`Status.cc:79-100`) |
| `oldSize`, `authenticate` | `Status.cc:34-43` with `set_size` (`Message.cc:93-99`); `mac` is the authenticator |
| `verify`         | `Status.cc:45-70`; `auth` is the result of `verify_auth_in` |
| `isPrepared`, `isCommitted`, `hasVc` | `Status.h:288-304` |
| `PPSIter.get`, `ppsSeq` | `PPS_iter` (`Status.cc:102-124`) and what it yields |

Nothing calls `add_breqs`, so `brsz` is `0`.

Offsets count from `1`, and a bitmap has room for the offsets below `8 * sz`. With a number of
sequence numbers that is a multiple of `8`, the last one is outside: the bit of `prepared` is the
first one of `committed`, which is not used there, but the bit of `committed` is in the first byte
of the authenticator. The bound in `mark` is the size of the window and not what is left of it, and
the offset is an `int`.
-/

namespace TinyBFT

structure PPInfo where
  v : Int
  n : Int
  proof : Int
  breqs : BitVec 64
deriving DecidableEq, Repr

structure Status where
  hasNvInfo : Bool
  hasNvM : Bool
  v : Int
  ls : Int
  le : Int
  id : Nat
  sz : Int
  bytes : Bits.Memory
  pps : Nat → PPInfo
  size : Int

/-- Conversion to `short`. -/
def toShort (x : Int) : Int := Int.bmod x (2 ^ 16)

theorem toShort_eq_self {x : Int} (h1 : -2 ^ 15 ≤ x) (h2 : x < 2 ^ 15) : toShort x = x := by
  unfold toShort
  rw [Int.bmod_def]
  split <;> omega

namespace Status

variable (P : Params) (E : Env)

def repSize : Nat := 40

def ppInfoSize : Nat := 24

/-- `vcs_size` (`Status.h:39`). -/
def vcsSize : Nat := (P.maxNumReplicas + 7) / 8

/-- `auth_size()` of a replica (`Node.h:244`). -/
def authSize : Nat := (E.n - 1) * 32

/-- `max_size` (`Message.cc:35`). -/
def maxSize : Nat := (P.maxMessageSize + 7) / 8 * 8

def new (mem : Bits.Memory) (pps : Nat → PPInfo) (v ls le : Int) (hnvi hnvm : Bool) : Status :=
  let s : Status := ⟨hnvi, hnvm, v, ls, le, E.id, 0, mem, pps, maxSize P⟩
  if hnvi then
    let sz := toShort (Int.tdiv (ls + P.maxOut - le + 7) 8)
    { s with sz, bytes := Bits.zero (Bits.zero mem 0 sz.toNat) sz.toNat sz.toNat }
  else { s with bytes := Bits.zero mem 0 (vcsSize P) }

/-- The offset of a sequence number in a bitmap. -/
def offset (s : Status) (n : Int) : Int := toInt (n - s.le)

/-- `prepared()` is `0` and `committed()` is `sz`. -/
def mark (n : Int) (set : Nat) (s : Status) : Status :=
  if 0 < s.offset n ∧ s.offset n ≤ P.maxOut then
    { s with bytes := Bits.set s.bytes set (s.offset n).toNat } else s

def test (n : Int) (set : Nat) (s : Status) : Bool :=
  if 0 < s.offset n ∧ s.offset n ≤ P.maxOut then Bits.test s.bytes set (s.offset n).toNat else false

inductive Call where
  | markPrepared (n : Int)
  | markCommitted (n : Int)
  | markVcs (i : Int)
  | appendPps (v n : Int) (mreqs : BitVec 64) (proof : Bool)
deriving DecidableEq, Repr

def markVcs (i : Int) (s : Status) : Option Status :=
  if !s.hasNvInfo ∧ 0 ≤ i ∧ i < vcsSize P * 8 then
    some { s with bytes := Bits.set s.bytes 0 i.toNat } else none

/-- The assertion is about the start of the entry. -/
def appendPps (v n : Int) (mreqs : BitVec 64) (proof : Bool) (s : Status) : Option Status :=
  if !s.hasNvInfo ∧ repSize + vcsSize P + s.sz.toNat * ppInfoSize < P.maxMessageSize then
    some { s with
      pps := Function.update s.pps s.sz.toNat ⟨v, toInt (n - s.ls), if proof then 1 else 0, mreqs⟩
      sz := toShort (s.sz + 1) }
  else none

def call (s : Status) : Call → Option Status
  | .markPrepared n => if s.hasNvInfo then some (s.mark P n 0) else none
  | .markCommitted n => if s.hasNvInfo then some (s.mark P n s.sz.toNat) else none
  | .markVcs i => s.markVcs P i
  | .appendPps v n mreqs proof => s.appendPps P v n mreqs proof

def oldSize (s : Status) : Nat :=
  if s.hasNvInfo then repSize + s.sz.toNat * 2 else repSize + vcsSize P + s.sz.toNat * ppInfoSize

/-- The authenticator is written over what is behind the message. -/
def authenticate (mac : Bits.Memory) (s : Status) : Option Status :=
  let size := s.oldSize P + authSize E
  let aligned := (size + 7) / 8 * 8
  if aligned ≤ maxSize P then
    some { s with
      bytes := Bits.write (Bits.zero s.bytes (size - repSize) (aligned - size))
        (s.oldSize P - repSize) (authSize E) mac
      size := aligned }
  else none

def verify (auth : Bool) (s : Status) : Bool :=
  let diff := toInt (s.le - s.ls)
  E.isReplica s.id && s.id != E.id && decide (0 ≤ s.v) &&
    decide (authSize E ≤ s.size - s.oldSize P) && auth && decide (0 ≤ diff ∧ diff ≤ P.maxOut) &&
    if s.hasNvInfo then
      decide (s.sz = (P.maxOut - diff + 7) / 8) else decide (0 ≤ s.sz ∧ s.sz ≤ P.maxOut)

def isPrepared (n : Int) (s : Status) : Option Bool :=
  if s.hasNvInfo then some (s.test P n 0) else none

def isCommitted (n : Int) (s : Status) : Option Bool :=
  if s.hasNvInfo then some (s.test P n s.sz.toNat) else none

def hasVc (i : Int) (s : Status) : Option Bool :=
  if !s.hasNvInfo ∧ 0 ≤ i ∧ i < vcsSize P * 8 then some (Bits.test s.bytes 0 i.toNat) else none

/-- What `get` sets at `next`: `v`, `n`, `mreqs` and `proof`. -/
def PPSIter.get (s : Status) (next : Nat) : Option (Int × Int × BitVec 64 × Bool) :=
  if next < s.sz then
    let ppi := s.pps next
    some (ppi.v, ppi.n + s.ls, ppi.breqs, ppi.proof != 0)
  else none

def ppsSeq (s : Status) : List (Int × Int × BitVec 64 × Bool) :=
  (List.range s.sz.toNat).filterMap (PPSIter.get s)

/-- The constructor, calls and `authenticate`. -/
def send (mem : Bits.Memory) (pps : Nat → PPInfo) (v ls le : Int) (hnvi hnvm : Bool)
    (calls : List Call) (mac : Bits.Memory) :
    Option Status := do
  (← calls.foldlM (call P) (new P E mem pps v ls le hnvi hnvm)).authenticate P E mac

/-! ## What the calls leave in the message -/

variable {P} {E}

/-- What is left of the window. -/
def rest (P : Params) (ls le : Int) : Int := ls + P.maxOut - le

/-- The bit that a call sets, counted from `prepared()`. -/
def bitOf (P : Params) (le : Int) (sz : Nat) : Call → Option Nat
  | .markPrepared n => if 0 < toInt (n - le) ∧ toInt (n - le) ≤ P.maxOut then
      some (toInt (n - le)).toNat else none
  | .markCommitted n =>
    if 0 < toInt (n - le) ∧ toInt (n - le) ≤ P.maxOut then
      some (8 * sz + (toInt (n - le)).toNat) else none
  | .markVcs i => some i.toNat
  | .appendPps _ _ _ _ => none

/-- The entry that a call appends, as it is read. -/
def storedOf (ls : Int) : Call → Option (Int × Int × BitVec 64 × Bool)
  | .appendPps v n mreqs proof => some (v, toInt (n - ls) + ls, mreqs, proof)
  | _ => none

/-- The entry that a call appends. -/
def appendedOf : Call → Option (Int × Int × BitVec 64 × Bool)
  | .appendPps v n mreqs proof => some (v, n, mreqs, proof)
  | _ => none

/-- A call changes the arrays only, and `sz` with `pps`. -/
structure Header (s t : Status) : Prop where
  hasNvInfo : t.hasNvInfo = s.hasNvInfo
  v : t.v = s.v
  ls : t.ls = s.ls
  le : t.le = s.le
  id : t.id = s.id
  sz : s.hasNvInfo = true → t.sz = s.sz

theorem Header.trans {r s t : Status} (h1 : Header r s) (h2 : Header s t) : Header r t where
  hasNvInfo := h2.hasNvInfo.trans h1.hasNvInfo
  v := h2.v.trans h1.v
  ls := h2.ls.trans h1.ls
  le := h2.le.trans h1.le
  id := h2.id.trans h1.id
  sz h := (h2.sz (h1.hasNvInfo.trans h)).trans (h1.sz h)

theorem mark_header (n : Int) (set : Nat) (s : Status) : Header s (s.mark P n set) := by
  unfold mark
  split <;> constructor <;> simp

theorem call_header {s t : Status} {c : Call} (hc : s.call P c = some t) : Header s t := by
  cases c with
  | markPrepared n | markCommitted n =>
    simp only [call, Option.ite_none_right_eq_some, Option.some.injEq] at hc
    exact hc.2 ▸ mark_header _ _ _
  | markVcs i =>
    simp only [call, markVcs, Option.ite_none_right_eq_some, Option.some.injEq] at hc
    obtain ⟨-, rfl⟩ := hc
    constructor <;> simp
  | appendPps v n mreqs proof =>
    simp only [call, appendPps, Option.ite_none_right_eq_some, Option.some.injEq] at hc
    obtain ⟨hg, rfl⟩ := hc
    constructor <;> simp
    intro h
    simp [h] at hg

theorem test_mark (n : Int) (set q j : Nat) (s : Status) :
    Bits.test (s.mark P n set).bytes q j = (Bits.test s.bytes q j ||
      decide (0 < s.offset n ∧ s.offset n ≤ P.maxOut ∧
        8 * set + (s.offset n).toNat = 8 * q + j)) := by
  unfold mark
  split
  · rename_i h
    rw [Bits.test_set, Bool.or_comm]
    congr 1
    rw [decide_eq_decide]
    exact ⟨fun he => ⟨h.1, h.2, he⟩, fun he => he.2.2⟩
  · rename_i h
    have : ¬(0 < s.offset n ∧ s.offset n ≤ P.maxOut ∧ 8 * set + (s.offset n).toNat = 8 * q + j) :=
      fun h' => h ⟨h'.1, h'.2.1⟩
    simp [this]

theorem call_bits {s t : Status} {c : Call} (hc : s.call P c = some t) (q j : Nat) :
    Bits.test t.bytes q j = (Bits.test s.bytes q j ||
        decide (bitOf P s.le s.sz.toNat c = some (8 * q + j))) := by
  cases c with
  | markPrepared n | markCommitted n =>
    simp only [call, Option.ite_none_right_eq_some, Option.some.injEq] at hc
    rw [← hc.2, test_mark]
    congr 1
    rw [decide_eq_decide]
    simp [bitOf, offset, and_assoc]
  | markVcs i =>
    simp only [call, markVcs, Option.ite_none_right_eq_some, Option.some.injEq] at hc
    obtain ⟨-, rfl⟩ := hc
    simp [Bits.test_set, bitOf, Bool.or_comm]
  | appendPps v n mreqs proof =>
    simp only [call, appendPps, Option.ite_none_right_eq_some, Option.some.injEq] at hc
    obtain ⟨-, rfl⟩ := hc
    simp [bitOf]

theorem run_header {s t : Status} {calls : List Call} (hr : calls.foldlM (call P) s = some t) :
    Header s t := by
  induction calls generalizing s with
  | nil =>
    cases hr
    constructor <;> simp
  | cons c cs ih =>
    obtain ⟨u, hc, hr⟩ := Option.bind_eq_some_iff.1 hr
    exact (call_header hc).trans (ih hr)

/-- With the new-view message, the calls are marks of the two bitmaps. -/
theorem run_marks {s t : Status} {calls : List Call} (hs : s.hasNvInfo = true)
    (hr : calls.foldlM (call P) s = some t) :
    ∀ c ∈ calls, ∃ n, c = .markPrepared n ∨ c = .markCommitted n := by
  induction calls generalizing s with
  | nil => simp
  | cons c cs ih =>
    obtain ⟨u, hc, hr⟩ := Option.bind_eq_some_iff.1 hr
    intro c' hc'
    rcases List.mem_cons.1 hc' with rfl | hc'
    · cases c' with
      | markPrepared n => exact ⟨n, .inl rfl⟩
      | markCommitted n => exact ⟨n, .inr rfl⟩
      | markVcs i => simp [call, markVcs, hs] at hc
      | appendPps v n mreqs proof => simp [call, appendPps, hs] at hc
    · exact ih ((call_header hc).hasNvInfo.trans hs) hr c' hc'

theorem run_bits {s t : Status} {calls : List Call} (hs : s.hasNvInfo = true)
    (hr : calls.foldlM (call P) s = some t) (q j : Nat) :
    Bits.test t.bytes q j =
      (Bits.test s.bytes q j || calls.any fun c =>
          decide (bitOf P s.le s.sz.toNat c = some (8 * q + j))) := by
  induction calls generalizing s with
  | nil =>
    cases hr
    simp
  | cons c cs ih =>
    obtain ⟨u, hc, hr⟩ := Option.bind_eq_some_iff.1 hr
    have hu := call_header hc
    rw [ih (hu.hasNvInfo.trans hs) hr, call_bits hc, hu.le, hu.sz hs, List.any_cons, Bool.or_assoc]

/-- Without it, every mark is one of a view-change, inside the bitmap. -/
theorem run_vcs {s t : Status} {calls : List Call} (hs : s.hasNvInfo = false)
    (hr : calls.foldlM (call P) s = some t) :
    (∀ i : Int, .markVcs i ∈ calls → 0 ≤ i ∧ i < vcsSize P * 8) ∧
      (∀ n, .markPrepared n ∉ calls ∧ .markCommitted n ∉ calls) ∧
      ∀ j, Bits.test t.bytes 0 j = true ↔ Bits.test s.bytes 0 j = true ∨ ∃ i,
        .markVcs i ∈ calls ∧ i.toNat = j := by
  induction calls generalizing s with
  | nil =>
    simp only [List.foldlM_nil, Option.pure_def, Option.some.injEq] at hr
    simp [hr]
  | cons c cs ih =>
    obtain ⟨u, hc, hr⟩ := Option.bind_eq_some_iff.1 hr
    obtain ⟨h1, h2, h3⟩ := ih ((call_header hc).hasNvInfo.trans hs) hr
    cases c with
    | markPrepared n | markCommitted n => simp [call, hs] at hc
    | markVcs i =>
      have hb := call_bits hc 0
      simp only [call, markVcs, Option.ite_none_right_eq_some, Option.some.injEq] at hc
      refine ⟨fun i' hi' => ?_, by simpa using h2, fun j => ?_⟩
      · rcases List.mem_cons.1 hi' with h | h
        · cases h
          exact hc.1.2
        · exact h1 i' h
      · rw [h3, hb, Bool.or_eq_true, or_assoc]
        simp [bitOf, or_and_right, exists_or]
    | appendPps v n mreqs proof =>
      have hb := call_bits hc 0
      refine ⟨by simpa using h1, by simpa using h2, fun j => ?_⟩
      rw [h3, hb]
      simp [bitOf]

theorem ppsSeq_append (s : Status) (bytes : Bits.Memory) (ppi : PPInfo) (hsz : 0 ≤ s.sz) :
    ppsSeq { s with bytes, pps := Function.update s.pps s.sz.toNat ppi, sz := s.sz + 1 } =
      ppsSeq s ++ [(ppi.v, ppi.n + s.ls, ppi.breqs, ppi.proof != 0)] := by
  have h1 : (s.sz + 1).toNat = s.sz.toNat + 1 := by omega
  unfold ppsSeq
  dsimp only
  rw [h1, List.range_succ, List.filterMap_append]
  congr 1
  · apply List.filterMap_congr
    intro k hk
    have hk : k < s.sz.toNat := by simpa using hk
    have h2 : (k : Int) < s.sz + 1 := by omega
    have h3 : (k : Int) < s.sz := by omega
    simp [PPSIter.get, h2, h3, Function.update_of_ne (show k ≠ s.sz.toNat by omega)]
  · have h2 : (s.sz.toNat : Int) < s.sz + 1 := by omega
    simp only [List.filterMap_cons, List.filterMap_nil,
      PPSIter.get, if_pos h2, Function.update_self]

theorem run_pps {s t : Status} {calls : List Call} (hs : s.hasNvInfo = false) (hsz : 0 ≤ s.sz)
    (hr : calls.foldlM (call P) s = some t) :
    ppsSeq t = ppsSeq s ++ calls.filterMap (storedOf s.ls) := by
  induction calls generalizing s with
  | nil =>
    cases hr
    simp
  | cons c cs ih =>
    obtain ⟨u, hc, hr⟩ := Option.bind_eq_some_iff.1 hr
    have hu := call_header hc
    have ih := fun h => ih (hu.hasNvInfo.trans hs) h hr
    rw [hu.ls] at ih
    cases c with
    | markPrepared n | markCommitted n => simp [call, hs] at hc
    | markVcs i =>
      simp only [call, markVcs, Option.ite_none_right_eq_some, Option.some.injEq] at hc
      obtain ⟨-, rfl⟩ := hc
      rw [ih hsz]
      rfl
    | appendPps v n mreqs proof =>
      simp only [call, appendPps, Option.ite_none_right_eq_some, Option.some.injEq] at hc
      obtain ⟨⟨-, hroom⟩, rfl⟩ := hc
      -- an entry that fits the message is far from the bound of a `short`
      have hmax := P.maxMessageSize_le
      have h1 : toShort (s.sz + 1) = s.sz + 1 := by
        unfold repSize ppInfoSize at hroom
        exact toShort_eq_self (by omega) (by omega)
      simp only [h1] at ih ⊢
      rw [ih (by omega), ppsSeq_append _ _ _ hsz]
      cases proof <;> simp [storedOf]

/-! ## The round trip -/

/-- Every mark is in its own bitmap. -/
def Contained (P : Params) (calls : List Call) (s : Status) : Prop :=
  (∀ n, .markPrepared n ∈ calls ∨ .markCommitted n ∈ calls →
    0 < s.offset n → s.offset n ≤ P.maxOut → s.offset n / 8 < s.sz) ∧
    ∀ i : Int, .markVcs i ∈ calls → 0 ≤ i ∧ i / 8 < vcsSize P

/-- What a message reports is what the calls marked and appended. -/
def Reports (P : Params) (n : Nat) (calls : List Call) (s : Status) : Prop :=
  if s.hasNvInfo then
    ∀ k, s.le < k → k ≤ s.ls + P.maxOut →
      s.isPrepared P k = some (decide (.markPrepared k ∈ calls)) ∧
        s.isCommitted P k = some (decide (.markCommitted k ∈ calls))
  else
    (∀ i : Nat, i < n → s.hasVc P i = some (decide (.markVcs i ∈ calls))) ∧
      s.ppsSeq = calls.filterMap appendedOf

/-- The number that a mark of `n` is read as is marked too. -/
def Hits (P : Params) (ls le : Int) (mark : Int → Call) (calls : List Call) : Prop :=
  ∀ n, mark n ∈ calls → 0 < toInt (n - le) → toInt (n - le) ≤ rest P ls le →
    mark (le + toInt (n - le)) ∈ calls

/-- The marks fit the bitmaps, no narrowed offset is that of another number, and the bit behind
`committed` is not set in the authenticator. -/
def Fits (P : Params) (ls le : Int) (hnvi : Bool) (calls : List Call) (mac : Bits.Memory) : Prop :=
  if hnvi then
    (∀ n, .markPrepared n ∈ calls ∨ .markCommitted n ∈ calls →
      0 < toInt (n - le) → toInt (n - le) ≤ P.maxOut →
        toInt (n - le) < 8 * ((rest P ls le + 7) / 8)) ∧
      Hits P ls le .markPrepared calls ∧ Hits P ls le .markCommitted calls ∧
      (0 < rest P ls le → rest P ls le % 8 = 0 → Bits.test mac 0 0 = false)
  else ∀ v n mreqs proof, .appendPps v n mreqs proof ∈ calls → toInt (n - ls) = n - ls

section Sent

variable {v ls le : Int} {hnvi hnvm : Bool} {mem mac : Bits.Memory} {pps : Nat → PPInfo}
    {calls : List Call} {s : Status}

/-- The header of the message, and the bits of its arrays before the authenticator is written. -/
theorem send_cases (hs : send P E mem pps v ls le hnvi hnvm calls mac = some s) :
    ∃ t, calls.foldlM (call P) (new P E mem pps v ls le hnvi hnvm) = some t ∧
      t.authenticate P E mac = some s ∧
      Header (new P E mem pps v ls le hnvi hnvm) t ∧ Header t s := by
  obtain ⟨t, ht, ha⟩ := Option.bind_eq_some_iff.1 hs
  refine ⟨t, ht, ha, run_header ht, ?_⟩
  simp only [authenticate, Option.ite_none_right_eq_some, Option.some.injEq] at ha
  obtain ⟨-, rfl⟩ := ha
  constructor <;> simp

theorem test_authenticate {t : Status} (ha : t.authenticate P E mac = some s) {q j : Nat}
    (h : q + j / 8 < t.oldSize P - repSize) : Bits.test s.bytes q j = Bits.test t.bytes q j := by
  simp only [authenticate, Option.ite_none_right_eq_some, Option.some.injEq] at ha
  obtain ⟨-, rfl⟩ := ha
  rw [Bits.test_write_of_lt _ _ h]
  exact Bits.test_write_of_lt _ _ (by omega)

/-- Behind the arrays is the authenticator. -/
theorem test_mac {t : Status} (ha : t.authenticate P E mac = some s) (hn : 1 < E.n) :
    Bits.test s.bytes (t.oldSize P - repSize) 0 = Bits.test mac 0 0 := by
  simp only [authenticate, Option.ite_none_right_eq_some, Option.some.injEq] at ha
  obtain ⟨-, rfl⟩ := ha
  refine Bits.test_write _ _ ?_
  unfold authSize
  omega

theorem toInt_offset {k : Int} (h1 : ls ≤ le) (hk : le < k) (hk' : k ≤ ls + P.maxOut) :
    toInt (k - le) = k - le := by
  have hmax := P.maxOut_lt
  exact toInt_eq_self (by omega) (by omega)

/-- Every call is a mark, the bits of the two bitmaps are those of the marks, and the authenticator
is behind them. -/
theorem sent_bits (hs : send P E mem pps v ls le true hnvm calls mac = some s) (hn : 1 < E.n) :
    (∀ c ∈ calls, ∃ n, c = .markPrepared n ∨ c = .markCommitted n) ∧
      (∀ q j, q + j / 8 < s.sz.toNat + s.sz.toNat →
        Bits.test s.bytes q j = calls.any fun c =>
          decide (bitOf P le s.sz.toNat c = some (8 * q + j))) ∧
      Bits.test s.bytes (s.sz.toNat + s.sz.toNat) 0 = Bits.test mac 0 0 := by
  obtain ⟨t, ht, ha, hnew, hhead⟩ := send_cases hs
  have hsz : s.sz = (new P E mem pps v ls le true hnvm).sz := (hnew.trans hhead).sz rfl
  have hold : t.oldSize P - repSize = s.sz.toNat + s.sz.toNat := by
    rw [hhead.sz hnew.hasNvInfo]
    have hnvi : t.hasNvInfo = true := hnew.hasNvInfo
    simp only [oldSize, hnvi, if_true]
    omega
  refine ⟨run_marks rfl ht, fun q j hqj => ?_, hold ▸ test_mac ha hn⟩
  rw [test_authenticate ha (hold ▸ hqj), run_bits rfl ht, ← hsz]
  have hzero : Bits.test (new P E mem pps v ls le true hnvm).bytes q j = false := by
    rw [hsz] at hqj
    by_cases hb : q + j / 8 < (new P E mem pps v ls le true hnvm).sz.toNat
    · exact (Bits.test_write_of_lt _ _ hb).trans
        (Bits.test_zero _ (Nat.zero_le _) ((Nat.zero_add _).symm ▸ hb))
    · exact Bits.test_zero _ (Nat.not_lt.1 hb) hqj
  rw [hzero, Bool.false_or]
  rfl

section Bitmaps

variable (h1 : ls ≤ le) (h2 : le ≤ ls + P.maxOut)
include h1 h2

theorem new_sz : (new P E mem pps v ls le true hnvm).sz = (rest P ls le + 7) / 8 := by
  have hmax := P.maxOut_lt
  show toShort (Int.tdiv (ls + P.maxOut - le + 7) 8) = (ls + P.maxOut - le + 7) / 8
  rw [Int.tdiv_eq_ediv_of_nonneg (by omega)]
  exact toShort_eq_self (by omega) (by omega)

variable (hs : send P E mem pps v ls le true hnvm calls mac = some s)
include hs

theorem sent_header :
    s.hasNvInfo = true ∧ s.ls = ls ∧ s.le = le ∧ s.sz = (rest P ls le + 7) / 8 := by
  obtain ⟨t, ht, ha, hnew, hhead⟩ := send_cases hs
  have h := hnew.trans hhead
  exact ⟨h.hasNvInfo, h.ls, h.le, (h.sz rfl).trans (new_sz h1 h2)⟩

theorem sent_contained (hn : 1 < E.n) : Contained P calls s ↔
    ∀ n, .markPrepared n ∈ calls ∨ .markCommitted n ∈ calls →
      0 < toInt (n - le) → toInt (n - le) ≤ P.maxOut →
      toInt (n - le) < 8 * ((rest P ls le + 7) / 8) := by
  obtain ⟨-, -, hle, hsz⟩ := sent_header h1 h2 hs
  obtain ⟨hmarks, -, -⟩ := sent_bits hs hn
  unfold Contained offset
  rw [hle, hsz]
  constructor
  · intro h n hc hpos hmax
    have := h.1 n hc hpos hmax
    omega
  · intro h
    refine ⟨fun n hc hpos hmax => ?_, fun i hi => ?_⟩
    · have := h n hc hpos hmax
      omega
    · obtain ⟨n, hn | hn⟩ := hmarks _ hi <;> cases hn

/-- The bit of a number in a bitmap is that of a mark of either kind. -/
theorem sent_test (hn : 1 < E.n) {k : Int} (hk : le < k) (hk' : k ≤ ls + P.maxOut) {q : Nat}
    (hq : q + (k - le).toNat / 8 < s.sz.toNat + s.sz.toNat) :
    s.test P k q = true ↔
      ∃ n, 0 < toInt (n - le) ∧ toInt (n - le) ≤ P.maxOut ∧
        (.markPrepared n ∈ calls ∧ toInt (n - le) = 8 * q + (k - le) ∨
          .markCommitted n ∈ calls ∧ 8 * s.sz.toNat + toInt (n - le) = 8 * q + (k - le)) := by
  obtain ⟨-, -, hle, -⟩ := sent_header h1 h2 hs
  obtain ⟨hmarks, hbits, -⟩ := sent_bits hs hn
  have hoff : s.offset k = k - le := by rw [offset, hle, toInt_offset h1 hk hk']
  have hin : 0 < s.offset k ∧ s.offset k ≤ P.maxOut := by omega
  rw [test, if_pos hin, hbits _ _ (hoff ▸ hq), List.any_eq_true, hoff]
  constructor
  · rintro ⟨c, hc, hbit⟩
    obtain ⟨n, rfl | rfl⟩ := hmarks c hc
    all_goals
      simp only [bitOf, decide_eq_true_eq, Option.ite_none_right_eq_some, Option.some.injEq] at hbit
      obtain ⟨⟨hpos, hmax⟩, heq⟩ := hbit
    · exact ⟨n, hpos, hmax, .inl ⟨hc, by omega⟩⟩
    · exact ⟨n, hpos, hmax, .inr ⟨hc, by omega⟩⟩
  · rintro ⟨n, hpos, hmax, ⟨hc, heq⟩ | ⟨hc, heq⟩⟩
    all_goals
      refine ⟨_, hc, ?_⟩
      simp only [bitOf, decide_eq_true_eq, Option.ite_none_right_eq_some, Option.some.injEq]
      omega

/-- A number is read as prepared where a mark has its offset: a mark of `committed` sets bits
further on. -/
theorem sent_isPrepared (hn : 1 < E.n) {k : Int} (hk : le < k) (hk' : k ≤ ls + P.maxOut) :
    ∃ b, s.isPrepared P k = some b ∧
      (b = true ↔ ∃ n, .markPrepared n ∈ calls ∧ toInt (n - le) = k - le) := by
  obtain ⟨hnvi, -, hle, hsz⟩ := sent_header h1 h2 hs
  unfold rest at hsz
  refine ⟨_, if_pos hnvi, (sent_test h1 h2 hs hn hk hk' (by omega)).trans ⟨?_, ?_⟩⟩
  · rintro ⟨n, hpos, -, ⟨hc, heq⟩ | ⟨-, heq⟩⟩
    · exact ⟨n, hc, by omega⟩
    · omega
  · rintro ⟨n, hc, heq⟩
    exact ⟨n, by omega, by omega, .inl ⟨hc, by omega⟩⟩

/-- A number inside the bitmap is read as committed where a mark has its offset, if no mark of
`prepared` left its bitmap. -/
theorem sent_isCommitted (hn : 1 < E.n) (hin : Contained P calls s) {k : Int} (hk : le < k)
    (hk' : k ≤ ls + P.maxOut) (hlast : k - le < 8 * ((rest P ls le + 7) / 8)) :
    ∃ b, s.isCommitted P k = some b ∧
      (b = true ↔ ∃ n, .markCommitted n ∈ calls ∧ toInt (n - le) = k - le) := by
  obtain ⟨hnvi, -, hle, hsz⟩ := sent_header h1 h2 hs
  refine ⟨_, if_pos hnvi, (sent_test h1 h2 hs hn hk hk' (by omega)).trans ⟨?_, ?_⟩⟩
  · rintro ⟨n, hpos, hmax, ⟨hc, heq⟩ | ⟨hc, heq⟩⟩
    · have hcn := hin.1 n (.inl hc)
      simp only [offset, hle] at hcn
      omega
    · exact ⟨n, hc, by omega⟩
  · rintro ⟨n, hc, heq⟩
    exact ⟨n, by omega, by omega, .inr ⟨hc, by omega⟩⟩

/-- The number behind the bitmap is read from the authenticator. -/
theorem sent_isCommitted_last (hn : 1 < E.n) (hpos : 0 < rest P ls le)
    (hlast : rest P ls le % 8 = 0) :
    s.isCommitted P (ls + P.maxOut) = some (Bits.test mac 0 0) := by
  obtain ⟨hnvi, -, hle, hsz⟩ := sent_header h1 h2 hs
  obtain ⟨-, -, hmac⟩ := sent_bits hs hn
  unfold rest at hpos hlast hsz
  have hoff : s.offset (ls + P.maxOut) = ls + P.maxOut - le := by
    rw [offset, hle, toInt_offset (P := P) h1 (by omega) (Int.le_refl _)]
  have hin : 0 < s.offset (ls + P.maxOut) ∧ s.offset (ls + P.maxOut) ≤ P.maxOut := by omega
  have hbit : (s.offset (ls + P.maxOut)).toNat = 8 * s.sz.toNat := by omega
  rw [isCommitted, if_pos hnvi, test, if_pos hin, hbit, ← hmac]
  simp [Bits.test]

end Bitmaps

/-- With the new-view message. -/
theorem roundtrip_bitmaps (h1 : ls ≤ le) (h2 : le ≤ ls + P.maxOut)
    (hs : send P E mem pps v ls le true hnvm calls mac = some s) (hn : 1 < E.n) (n : Nat) :
    Reports P n calls s ∧ Contained P calls s ↔ Fits P ls le true calls mac := by
  obtain ⟨hnvi, hls, hle, hsz⟩ := sent_header h1 h2 hs
  have hcont := sent_contained h1 h2 hs hn
  have hW : ∀ {k : Int}, le < k → (k ≤ ls + P.maxOut ↔ k - le ≤ rest P ls le) := by
    unfold rest
    omega
  simp only [Fits, Reports, hnvi, if_true, hls, hle, ← hcont, and_comm (b := Contained P calls s)]
  refine and_congr_right fun hin => ?_
  have hin' := hcont.1 hin
  constructor
  · intro hrep
    refine ⟨fun n hc hpos hmax => ?_, fun n hc hpos hmax => ?_, fun hpos hlast => ?_⟩
    · have hk : le < le + toInt (n - le) := by omega
      have hk' := (hW hk).2 (by omega)
      obtain ⟨b, hb, hiff⟩ := sent_isPrepared h1 h2 hs hn hk hk'
      have hb' := (hrep _ hk hk').1
      rw [hb, Option.some.injEq] at hb'
      rw [← decide_eq_true_eq (p := _ ∈ calls), ← hb']
      exact hiff.2 ⟨n, hc, by omega⟩
    · have hk : le < le + toInt (n - le) := by omega
      have hk' := (hW hk).2 (by omega)
      have hbound := hin' n (.inr hc) hpos (by unfold rest at hmax; omega)
      obtain ⟨b, hb, hiff⟩ := sent_isCommitted h1 h2 hs hn hin hk hk' (by omega)
      have hb' := (hrep _ hk hk').2
      rw [hb, Option.some.injEq] at hb'
      rw [← decide_eq_true_eq (p := _ ∈ calls), ← hb']
      exact hiff.2 ⟨n, hc, by omega⟩
    · have hk : le < ls + P.maxOut := by unfold rest at hpos; omega
      have hlast' := (hrep _ hk (Int.le_refl _)).2
      rw [sent_isCommitted_last h1 h2 hs hn hpos hlast, Option.some.injEq] at hlast'
      rw [hlast', decide_eq_false_iff_not]
      intro hc
      have hoff := toInt_offset (P := P) h1 hk (Int.le_refl _)
      have hlt := hin' _ (.inr hc)
      unfold rest at hpos hlast hlt
      omega
  · rintro ⟨hprep, hcomm, hmac⟩ k hk hk'
    have hoff := toInt_offset (P := P) h1 hk hk'
    constructor
    · obtain ⟨b, hb, hiff⟩ := sent_isPrepared h1 h2 hs hn hk hk'
      rw [hb, Option.some.injEq, Bool.eq_iff_iff, hiff, decide_eq_true_eq]
      constructor
      · rintro ⟨n, hc, heq⟩
        have := hprep n hc (by omega) (by rw [heq]; exact (hW hk).1 hk')
        rwa [heq, add_sub_cancel] at this
      · exact fun hc => ⟨k, hc, hoff⟩
    · by_cases hlast : k - le < 8 * ((rest P ls le + 7) / 8)
      · obtain ⟨b, hb, hiff⟩ := sent_isCommitted h1 h2 hs hn hin hk hk' hlast
        rw [hb, Option.some.injEq, Bool.eq_iff_iff, hiff, decide_eq_true_eq]
        constructor
        · rintro ⟨n, hc, heq⟩
          have := hcomm n hc (by omega) (by rw [heq]; exact (hW hk).1 hk')
          rwa [heq, add_sub_cancel] at this
        · exact fun hc => ⟨k, hc, hoff⟩
      · -- the last number of the window, which no mark reached
        have hle' := (hW hk).1 hk'
        have hk0 : k = ls + P.maxOut := by unfold rest at hle' hlast; omega
        rw [hk0, sent_isCommitted_last h1 h2 hs hn (by omega) (by omega),
          hmac (by omega) (by omega), Option.some.injEq,
          eq_comm, decide_eq_false_iff_not]
        intro hc
        have := hin' _ (.inr hc)
        rw [hk0] at hoff
        unfold rest at hle' hlast this
        omega

theorem appended_eq_stored_iff : calls.filterMap (storedOf ls) = calls.filterMap appendedOf ↔
    ∀ v n mreqs proof, .appendPps v n mreqs proof ∈ calls → toInt (n - ls) = n - ls := by
  induction calls with
  | nil => simp
  | cons c cs ih =>
    cases c with
    | markPrepared n | markCommitted n | markVcs i =>
      rw [List.filterMap_cons_none rfl, List.filterMap_cons_none rfl, ih]
      simp
    | appendPps v n mreqs proof =>
      have hn : toInt (n - ls) + ls = n ↔ toInt (n - ls) = n - ls := by omega
      simp only [storedOf, appendedOf, List.filterMap_cons,
        List.cons.injEq, ih, Prod.mk.injEq, true_and, and_true, hn]
      constructor
      · rintro ⟨hhead, hrest⟩ v' n' mreqs' proof' hc
        rcases List.mem_cons.1 hc with hc | hc
        · cases hc
          exact hhead
        · exact hrest v' n' mreqs' proof' hc
      · exact fun h => ⟨h v n mreqs proof List.mem_cons_self,
          fun _ _ _ _ hc => h _ _ _ _ (List.mem_cons_of_mem _ hc)⟩

/-- Without it: the bitmap has room for every replica, and the entries keep what fits an `int`. -/
theorem roundtrip_missing (hs : send P E mem pps v ls le false hnvm calls mac = some s) {n : Nat}
    (hn : n ≤ P.maxNumReplicas) :
    Reports P n calls s ∧ Contained P calls s ↔ Fits P ls le false calls mac := by
  obtain ⟨t, ht, ha, hnew, hhead⟩ := send_cases hs
  have hnvi : s.hasNvInfo = false := (hnew.trans hhead).hasNvInfo
  obtain ⟨hin, hnone, hbits⟩ := run_vcs rfl ht
  have hcont : Contained P calls s :=
    ⟨fun n hc => absurd hc (not_or.2 (hnone n)),
      fun i hi => ⟨(hin i hi).1, by have := (hin i hi).2; omega⟩⟩
  have hvcs : ∀ i : Nat, i < n → s.hasVc P i = some (decide (.markVcs i ∈ calls)) := by
    intro i hi
    have hroom : i < vcsSize P * 8 := by unfold vcsSize; omega
    have hold : 0 + i / 8 < t.oldSize P - repSize := by
      have htnv : t.hasNvInfo = false := hnew.hasNvInfo
      simp only [oldSize, htnv]
      simp only [Bool.false_eq_true, if_false]
      omega
    rw [hasVc, if_pos ⟨by simpa using hnvi, by omega, by omega⟩,
      Option.some.injEq, Bool.eq_iff_iff, decide_eq_true_eq,
      Int.toNat_natCast, test_authenticate ha hold, hbits]
    have hzero : Bits.test (new P E mem pps v ls le false hnvm).bytes 0 i = false :=
      Bits.test_zero _ (Nat.zero_le _) (by omega)
    simp only [hzero, Bool.false_eq_true, false_or]
    constructor
    · rintro ⟨j, hj, rfl⟩
      have h0 := (hin j hj).1
      rwa [Int.toNat_of_nonneg h0]
    · exact fun hi => ⟨i, hi, rfl⟩
  have hpps : s.ppsSeq = calls.filterMap (storedOf ls) := by
    have hseq : s.ppsSeq = t.ppsSeq := by
      simp only [authenticate, Option.ite_none_right_eq_some, Option.some.injEq] at ha
      obtain ⟨-, rfl⟩ := ha
      rfl
    rw [hseq, run_pps rfl (by exact Int.le_refl 0) ht]
    rfl
  simp only [Reports, Fits, hnvi, Bool.false_eq_true, if_false, hpps, appended_eq_stored_iff]
  exact ⟨fun h => h.1.2, fun h => ⟨⟨hvcs, h⟩, hcont⟩⟩

/-- **A status message reports what was marked and appended** at a receiver that accepts it exactly
if the marks fit their bitmaps, no offset that was cut down to an `int` is that of another number,
and the authenticator has a zero where the last bit of `committed` is read. -/
theorem status_roundtrip {R : Env} {auth : Bool} (h1 : ls ≤ le) (h2 : le ≤ ls + P.maxOut)
    (hs : send P E mem pps v ls le hnvi hnvm calls mac = some s) (hR : R.n = E.n) (hid : R.id < R.n)
    (hmax : R.n ≤ P.maxNumReplicas) (hv : s.verify P R auth = true) :
    Reports P R.n calls s ∧ Contained P calls s ↔ Fits P ls le hnvi calls mac := by
  cases hnvi with
  | true =>
    simp only [verify, Env.isReplica, Bool.and_eq_true, decide_eq_true_eq, bne_iff_ne] at hv
    obtain ⟨⟨⟨⟨⟨⟨hrep, hne⟩, -⟩, -⟩, -⟩, -⟩, -⟩ := hv
    exact roundtrip_bitmaps h1 h2 hs (by omega) R.n
  | false => exact roundtrip_missing hs hmax

end Sent

/-! ## The last number of a whole window -/

/-- A replica that has just made a checkpoint stable committed the whole window, and no other
replica sees that it committed the last batch. -/
theorem last_committed_lost :
    ∃ s, send Params.default ⟨4, 1, 0, false⟩ (fun _ => 0)
      (fun _ => ⟨0, 0, 0, 0⟩) 0 0 0 true true [.markCommitted 256] (fun _ => 0) =
        some s ∧ s.verify Params.default ⟨4, 1, 1, false⟩ true = true ∧
          s.isCommitted Params.default 256 = some false := by
  obtain ⟨s, hs, h⟩ := (Option.any_eq_true _ _).1
    (show (send Params.default ⟨4, 1, 0, false⟩ (fun _ => 0) (fun _ => ⟨0, 0, 0, 0⟩)
    0 0 0 true true [.markCommitted 256] (fun _ => 0)).any
      (fun s => s.verify Params.default ⟨4, 1, 1, false⟩ true &&
      s.isCommitted Params.default 256 == some false) = true by decide +kernel)
  rw [Bool.and_eq_true, beq_iff_eq] at h
  exact ⟨s, hs, h⟩

/-- With a batch executed, every other number of the window is reported. -/
theorem status_roundtrip_ten :
    ∃ s, send Params.default ⟨4, 1, 0, false⟩ (fun _ => 0)
      (fun _ => ⟨0, 0, 0, 0⟩) 0 0 1 true true [.markPrepared 256, .markCommitted 10]
        (fun _ => 0) = some s ∧
      Reports Params.default 4 [.markPrepared 256, .markCommitted 10] s ∧
        Contained Params.default [.markPrepared 256, .markCommitted 10] s := by
  obtain ⟨s, hs, h⟩ := (Option.any_eq_true _ _).1
    (show (send Params.default ⟨4, 1, 0, false⟩ (fun _ => 0) (fun _ => ⟨0, 0, 0, 0⟩)
    0 0 1 true true [.markPrepared 256, .markCommitted 10] (fun _ => 0)).any
      (fun s => s.verify Params.default ⟨4, 1, 1, false⟩ true) = true
    by decide +kernel)
  refine ⟨s, hs,
    (status_roundtrip (R := ⟨4, 1, 1, false⟩) (by decide) (by decide) hs rfl (by decide)
      (by decide) (show s.verify Params.default ⟨4, 1, 1, false⟩ true = true from h)).2 ?_⟩
  refine ⟨fun n hn => ?_, fun n hn => ?_, fun n hn => ?_, fun _ => by decide⟩
  · have : n = 256 ∨ n = 10 := by simpa using hn
    rcases this with rfl | rfl <;> decide
  · have : n = 256 := by simpa using hn
    subst this
    simp
    decide
  · have : n = 10 := by simpa using hn
    subst this
    simp
    decide

end Status

end TinyBFT
