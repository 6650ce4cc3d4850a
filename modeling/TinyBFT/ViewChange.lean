import TinyBFT.Messages
import Mathlib.Data.List.Nodup
import Mathlib.Data.List.GetD
import Mathlib.Tactic.IntervalCases

/-!
# `View_change` messages (`View_change.h`, `View_change.cc`)

A view-change message has the digests of the checkpoints a replica holds and one `Req_info` for each
sequence number above its last stable checkpoint, with a bitmap of those that prepared.

| here | there |
| --- | --- |
| `ReqInfo`       | `Req_info` (`View_change.h:34-38`) |
| `ViewChange`    | `View_change_rep` (`View_change.h:43-67`); `reqInfo` is the array that follows it |
| `Buffer`        | what the reused block holds before `init` |
| `maskOf`        | `1 << (index % 64)` converted to 64 bits (`View_change.h:197`, `:205`) |
| `mark`, `test`  | `View_change.h:192-206` |
| `init`          | `View_change::init` (`View_change.cc:25-42`) |
| `addCheckpoint` | `add_checkpoint` (`View_change.cc:44-56`) |
| `addRequest`    | `add_request` (`View_change.cc:58-82`) |
| `ckpt`, `proofs`, `req` | `View_change.cc:84-125` |
| `lastCkpt`, `maxSeqno`  | `last_ckpt`, `max_seqno` (`View_change.h:216-228`) |

An operation returns `none` where an assertion fails or an array is read out of bounds.

The shift in `mark` and `test` is a shift of the `int` `1`, so the bit of an index depends on the
index modulo `32` only (C++ leaves a count of `32` or more undefined; the targets take it modulo
`32`), and position `31` is the sign, which fills the upper half of the word. `init` clears as many
`unsigned`s as the bitmap has 64-bit words, the first half of it.
-/

namespace TinyBFT

structure ReqInfo where
  lv : Int
  v : Int
  d : Digest
deriving DecidableEq, Repr, Inhabited

structure ViewChange where
  v : Int
  ls : Int
  id : Nat
  ckpts : List Digest
  nCkpts : Nat
  nReqs : Nat
  prepared : List (BitVec 64)
  reqInfo : List ReqInfo
deriving DecidableEq, Repr, Inhabited

namespace ViewChange

variable (P : Params)

def preparedSize : Nat := (P.maxOut + 63) / 64

/-- Number of entries of `ckpts`. -/
def ckptsSize : Nat := P.maxOut / P.ckptInterval + 1

/-- The bitmap and the request entries of the block that a message is built in. -/
structure Buffer where
  prepared : List (BitVec 64)
  reqInfo : List ReqInfo
  prepared_length : prepared.length = preparedSize P
  reqInfo_length : reqInfo.length = P.maxOut

/-- A buffer with every word of the bitmap equal to `w`. -/
def Buffer.filled (w : BitVec 64) : Buffer P where
  prepared := List.replicate (preparedSize P) w
  reqInfo := List.replicate P.maxOut default
  prepared_length := by simp
  reqInfo_length := by simp

def maskOf (index : Nat) : BitVec 64 := (1#32 <<< (index % 64 % 32)).signExtend 64

def mark (vc : ViewChange) (index : Int) : Option ViewChange :=
  if 0 ≤ index ∧ index < preparedSize P * 64 then
    some { vc with prepared := vc.prepared.modify (index.toNat / 64) (· ||| maskOf index.toNat) }
  else none

/-- `if (prepared) mark(index)`. -/
def markIf (vc : ViewChange) (prepared : Bool) (index : Int) : Option ViewChange :=
  if prepared then mark P vc index else some vc

def test (vc : ViewChange) (index : Int) : Option Bool :=
  if 0 ≤ index ∧ index < preparedSize P * 64 then
    some (vc.prepared.getD (index.toNat / 64) 0 &&& maskOf index.toNat != 0)
  else none

/-- `bzero` of `prepared_size * sizeof(unsigned)` bytes, on word `j` (little endian). -/
def bzeroWord (j : Nat) (w : BitVec 64) : BitVec 64 :=
  let cleared := min 64 (32 * preparedSize P - 64 * j)
  (w >>> cleared) <<< cleared

def init (buf : Buffer P) (v ls : Int) (id : Nat) : ViewChange where
  v := v
  ls := ls
  id := id
  ckpts := List.replicate (ckptsSize P) 0
  nCkpts := 0
  nReqs := 0
  prepared := buf.prepared.mapIdx (bzeroWord P)
  reqInfo := buf.reqInfo

def addCheckpoint (vc : ViewChange) (n : Int) (d : Digest) : Option ViewChange :=
  if n % P.ckptInterval = 0 ∧ vc.ls ≤ n ∧ n ≤ vc.ls + P.maxOut then
    let index := (toInt ((n - vc.ls) / P.ckptInterval)).toNat
    some { vc with
      ckpts := vc.ckpts.set index d, nCkpts := if vc.nCkpts ≤ index then index + 1 else vc.nCkpts }
  else none

def addRequest (vc : ViewChange) (n v lv : Int) (d : Digest) (prepared : Bool) :
    Option ViewChange :=
  if (vc.ls < n ∧ n ≤ vc.ls + P.maxOut) ∧ v < vc.v ∧ lv < vc.v then do
    let index := toInt (n - vc.ls - 1)
    let vc ← markIf P vc prepared index
    let k := index.toNat
    let reqInfo := vc.reqInfo.set k ⟨lv, v, d⟩
    if vc.nReqs ≤ k then
      -- holes get a negative view
      some { vc with
        reqInfo := reqInfo.mapIdx fun i ri => if vc.nReqs ≤ i ∧
          i < k then { ri with v := -1, lv := -1 } else ri
        nReqs := k + 1 }
    else some { vc with reqInfo }
  else none

def ckpt (vc : ViewChange) (n : Int) : Option (Option Digest) :=
  if n % P.ckptInterval ≠ 0 ∨ n < vc.ls then some none
  else
    let index := toInt ((n - vc.ls) / P.ckptInterval)
    if vc.nCkpts ≤ index then some none
    else if index < 0 then none
    else
      let d := vc.ckpts.getD index.toNat 0
      if d.isZero then some none else some (some d)

/-- The answer of `proofs`: `v`, `lv`, `d` and `prepared`. -/
def proofs (vc : ViewChange) (n : Int) : Option (Option (Int × Int × Digest × Bool)) :=
  let index := toInt (n - vc.ls - 1)
  let ri := vc.reqInfo.getD index.toNat default
  if index < 0 ∨ vc.nReqs ≤ index ∨ ri.v < 0 then some none
  else do
    let prepared ← test P vc index
    some (some (ri.v, ri.lv, ri.d, prepared))

/-- The answer of `req`: the view and the digest; `(-1, 0)` is the null request. -/
def req (vc : ViewChange) (n : Int) : Option (Int × Digest) :=
  if n ≤ vc.ls then none
  else
    let index := toInt (n - vc.ls - 1)
    if vc.nReqs ≤ index then some (-1, 0)
    else do
      if !(← test P vc index) then some (-1, 0)
      else
        let ri := vc.reqInfo.getD index.toNat default
        some (ri.v, ri.d)

/-- The digest and sequence number of the last checkpoint; `last_ckpt` asserts that it is not
null. -/
def lastCkpt (vc : ViewChange) : Option (Option (Digest × Int)) :=
  if 0 < vc.nCkpts then
    let d := vc.ckpts.getD (vc.nCkpts - 1) 0
    if d = 0 then none else some (some (d, (vc.nCkpts - 1 : Nat) * P.ckptInterval + vc.ls))
  else some none

def maxSeqno (vc : ViewChange) : Int := vc.ls + vc.nReqs

/-! ## Messages built by a sequence of calls -/

/-- A call of `add_checkpoint` or `add_request`. -/
inductive Add
  | checkpoint (n : Int) (d : Digest)
  | request (n v lv : Int) (d : Digest) (prepared : Bool)
deriving DecidableEq, Repr

def add (vc : ViewChange) : Add → Option ViewChange
  | .checkpoint n d => addCheckpoint P vc n d
  | .request n v lv d prepared => addRequest P vc n v lv d prepared

def build (buf : Buffer P) (v ls : Int) (id : Nat) (adds : List Add) : Option ViewChange :=
  adds.foldlM (add P) (init P buf v ls id)

/-- The ranges that a call has to meet, in a message for view `view`. -/
def Add.InRange (view ls : Int) : Add → Prop
  | .checkpoint n d => n % P.ckptInterval = 0 ∧ ls ≤ n ∧ n ≤ ls + P.maxOut ∧ d ≠ 0
  | .request n v lv _ _ => ls < n ∧ n ≤ ls + P.maxOut ∧ 0 ≤ v ∧ v < view ∧ lv < view

def Add.ckptSeqno : Add → Option Int
  | .checkpoint n _ => some n
  | .request .. => none

def Add.reqSeqno : Add → Option Int
  | .checkpoint .. => none
  | .request n .. => some n

/-- All calls are in range, and no checkpoint and no request is added twice. -/
structure Valid (view ls : Int) (adds : List Add) : Prop where
  inRange : ∀ a ∈ adds, a.InRange P view ls
  ckpts_nodup : (adds.filterMap Add.ckptSeqno).Nodup
  reqs_nodup : (adds.filterMap Add.reqSeqno).Nodup

/-- The digest added for checkpoint `n`. -/
def ckptAt (adds : List Add) (n : Int) : Option Digest :=
  adds.findSome? fun
    | .checkpoint m d => if m = n then some d else none
    | .request .. => none

/-- The request added for `n`: `v`, `lv`, `d` and `prepared`. -/
def reqAt (adds : List Add) (n : Int) : Option (Int × Int × Digest × Bool) :=
  adds.findSome? fun
    | .checkpoint .. => none
    | .request m v lv d prepared => if m = n then some (v, lv, d, prepared) else none

/-- What `req` should answer for what was added. -/
def reqAnswer : Option (Int × Int × Digest × Bool) → Int × Digest
  | some (v, _, d, true) => (v, d)
  | _ => (-1, 0)

/-- `ckpt`, `proofs` and `req` return for `n` what was added for it. -/
structure Answers (vc : ViewChange) (adds : List Add) (n : Int) : Prop where
  ckpt : vc.ckpt P n = some (ckptAt adds n)
  proofs : vc.proofs P n = some (reqAt adds n)
  req : vc.ls < n → vc.req P n = some (reqAnswer (reqAt adds n))

/-- `last_ckpt` returns the last checkpoint that was added. -/
def LastCkptRight (vc : ViewChange) (adds : List Add) : Prop :=
  (vc.lastCkpt P = some none ∧ ∀ n d, .checkpoint n d ∉ adds) ∨
    ∃ n d, vc.lastCkpt P = some (some (d, n)) ∧ .checkpoint n d ∈ adds ∧
      ∀ m e, .checkpoint m e ∈ adds → m ≤ n

/-- `max_seqno` returns the last sequence number that a request was added for. -/
def MaxSeqnoRight (vc : ViewChange) (adds : List Add) : Prop :=
  (vc.maxSeqno = vc.ls ∧ ∀ n v lv d p, .request n v lv d p ∉ adds) ∨
    ∃ n v lv d p, vc.maxSeqno = n ∧ .request n v lv d p ∈ adds ∧
      ∀ m v lv d p, .request m v lv d p ∈ adds → m ≤ n

/-- The bit that `test` reads for index `i` is clear unless a call sets it for `i` itself: `init`
leaves it clear, and no request added as prepared shares its word and its position modulo `32`. -/
def Undisturbed (buf : Buffer P) (ls : Int) (adds : List Add) (i : Int) : Prop :=
  bzeroWord P (i.toNat / 64) (buf.prepared.getD (i.toNat / 64) 0) &&& maskOf i.toNat = 0 ∧
    ∀ m v lv d, .request m v lv d true ∈ adds → (m - ls - 1) / 64 = i / 64 →
      (m - ls - 1) % 32 ≠ i % 32

/-- The `int` index of `n` is that of no other checkpoint, and the first word of its digest is not
`0`. -/
def CkptOk (ls : Int) (adds : List Add) (n : Int) : Prop :=
  n % P.ckptInterval = 0 → ls ≤ n →
    0 ≤ toInt ((n - ls) / P.ckptInterval) ∧
      ∀ m d, .checkpoint m d ∈ adds →
        (m - ls) / P.ckptInterval = toInt ((n - ls) / P.ckptInterval) →
        (m = n ↔ d.isZero = false)

/-- The `int` index of `n` is that of no other request, and its bit is undisturbed, where a request
was added as not prepared and where none was added below the last one. -/
def ReqOk (buf : Buffer P) (ls : Int) (adds : List Add) (n : Int) : Prop :=
  let i := toInt (n - ls - 1)
  (∀ m v lv d p, .request m v lv d p ∈ adds → m - ls - 1 = i →
    m = n ∧ (p = false → Undisturbed P buf ls adds i)) ∧
  (ls < n → 0 ≤ i ∧
    ((∀ m v lv d p, .request m v lv d p ∈ adds → m - ls - 1 ≠ i) →
      (∃ m v lv d p, .request m v lv d p ∈ adds ∧ i < m - ls - 1) →
      Undisturbed P buf ls adds i ∨ (buf.reqInfo.getD i.toNat default).d = 0))

/-! ## The bitmap -/

/-- Two indices share a bit exactly when they are equal modulo `32`. -/
theorem maskOf_and_ne_zero (i j : Nat) : maskOf i &&& maskOf j ≠ 0 ↔ i % 32 = j % 32 := by
  have h : ∀ a b :
    Fin 32, ((1#32 <<< a.val).signExtend 64 &&& (1#32 <<< b.val).signExtend 64 ≠ 0) ↔ a = b := by
    decide +kernel
  have hi : i % 64 % 32 = i % 32 := by omega
  have hj : j % 64 % 32 = j % 32 := by omega
  have := h ⟨i % 32, by omega⟩ ⟨j % 32, by omega⟩
  simpa [maskOf, hi, hj, Fin.ext_iff] using this

theorem or_and_ne_zero (a b c : BitVec 64) : (a ||| b) &&& c ≠ 0 ↔ a &&& c ≠ 0 ∨ b &&& c ≠ 0 := by
  have h : (a ||| b) &&& c = (a &&& c) ||| (b &&& c) := BitVec.and_or_distrib_right
  have h0 : (a &&& c) ||| (b &&& c) = 0 ↔ a &&& c = 0 ∧ b &&& c = 0 := BitVec.or_eq_zero_iff
  rw [h, Ne, h0]
  tauto

/-! ## What a sequence of calls builds -/

variable {P} {buf : Buffer P} {view ls : Int} {id : Nat} {vc vc' : ViewChange} {done : List Add}

/-- The message after the calls `done`. -/
structure Built (buf : Buffer P) (view ls : Int) (done : List Add) (vc : ViewChange) : Prop where
  v_eq : vc.v = view
  ls_eq : vc.ls = ls
  ckpts_length : vc.ckpts.length = ckptsSize P
  prepared_length : vc.prepared.length = preparedSize P
  reqInfo_length : vc.reqInfo.length = P.maxOut
  ckpts : ∀ n d, .checkpoint n d ∈ done → vc.ckpts.getD ((n - ls) / P.ckptInterval).toNat 0 = d
  ckpts_free : ∀ k, (∀ n d, .checkpoint n d ∈ done → (n - ls) / P.ckptInterval ≠ (k : Nat)) →
    vc.ckpts.getD k 0 = 0
  ckpts_lt : ∀ n d, .checkpoint n d ∈ done → (n - ls) / P.ckptInterval < vc.nCkpts
  ckpts_top : vc.nCkpts ≠ 0 → ∃ n d, .checkpoint n d ∈ done ∧
    (n - ls) / P.ckptInterval + 1 = vc.nCkpts
  reqs : ∀ n v lv d p, .request n v lv d p ∈ done →
    vc.reqInfo.getD (n - ls - 1).toNat default = ⟨lv, v, d⟩
  holes : ∀ k : Nat, k < vc.nReqs → (∀ n v lv d p, .request n v lv d p ∈ done → n - ls - 1 ≠ k) →
    (vc.reqInfo.getD k default).v = -1 ∧
      (vc.reqInfo.getD k default).d = (buf.reqInfo.getD k default).d
  reqs_lt : ∀ n v lv d p, .request n v lv d p ∈ done → n - ls - 1 < vc.nReqs
  reqs_top : vc.nReqs ≠ 0 → ∃ n v lv d p, .request n v lv d p ∈ done ∧ n - ls = vc.nReqs
  fresh : ∀ k, vc.nReqs ≤ k → vc.reqInfo.getD k default = buf.reqInfo.getD k default
  bits : ∀ i : Nat, i < preparedSize P * 64 →
    (vc.prepared.getD (i / 64) 0 &&& maskOf i = 0 ↔ Undisturbed P buf ls done i)

theorem init_built : Built buf view ls [] (init P buf view ls id) := by
  constructor <;> try simp [init, buf.prepared_length, buf.reqInfo_length]
  intro i hi
  have hlt : i / 64 < buf.prepared.length := by rw [buf.prepared_length]; omega
  simp [Undisturbed, hlt]

/-- `index` of an added checkpoint, and its bound. -/
theorem ckpt_index {n : Int} (h1 : ls ≤ n) (h2 : n ≤ ls + P.maxOut) :
    0 ≤ (n - ls) / P.ckptInterval ∧ ((n - ls) / P.ckptInterval).toNat < ckptsSize P ∧
      toInt ((n - ls) / P.ckptInterval) = (n - ls) / P.ckptInterval := by
  have hM := P.maxOut_lt
  have hc := P.ckptInterval_pos
  have h0 : 0 ≤ (n - ls) / P.ckptInterval := Int.ediv_nonneg (by omega) (by omega)
  have hle : (n - ls) / P.ckptInterval ≤ ((P.maxOut / P.ckptInterval : Nat) : Int) := by
    push_cast
    exact Int.ediv_le_ediv (by omega) (by omega)
  have hdiv : P.maxOut / P.ckptInterval ≤ P.maxOut := Nat.div_le_self _ _
  refine ⟨h0, ?_, toInt_eq_self (by omega) (by omega)⟩
  unfold ckptsSize
  omega

/-- Two multiples of the interval above `ls` have the same index only if they are equal. -/
theorem ckpt_index_inj {n m : Int} (hn : n % P.ckptInterval = 0) (hm : m % P.ckptInterval = 0)
    (h : (n - ls) / P.ckptInterval = (m - ls) / P.ckptInterval) : n = m := by
  have hc : (0 : Int) < P.ckptInterval := by exact_mod_cast P.ckptInterval_pos
  obtain ⟨a, rfl⟩ := Int.dvd_of_emod_eq_zero hn
  obtain ⟨b, rfl⟩ := Int.dvd_of_emod_eq_zero hm
  have ha : (↑P.ckptInterval * a - ls) / ↑P.ckptInterval = a + (-ls) / ↑P.ckptInterval := by
    rw [sub_eq_add_neg, add_comm, Int.add_mul_ediv_left _ _ hc.ne', add_comm]
  have hb : (↑P.ckptInterval * b - ls) / ↑P.ckptInterval = b + (-ls) / ↑P.ckptInterval := by
    rw [sub_eq_add_neg, add_comm, Int.add_mul_ediv_left _ _ hc.ne', add_comm]
  rw [ha, hb] at h
  rw [show a = b by omega]

theorem getD_set {α : Type} (l : List α) (i j : Nat) (a d : α) (h : i < l.length) :
    (l.set i a).getD j d = if i = j then a else l.getD j d := by
  simp only [List.getD_eq_getElem?_getD, List.getElem?_set]
  split
  · subst_vars; simp
  · rfl

theorem addCheckpoint_built (hb : Built buf view ls done vc) {n : Int} {d : Digest}
    (hr : (Add.checkpoint n d).InRange P view ls) (hnew : ∀ m e, .checkpoint m e ∈ done → m ≠ n)
    (hdone : ∀ (m : Int) e, .checkpoint m e ∈ done → m % P.ckptInterval = 0 ∧ ls ≤ m) :
    ∃ vc', addCheckpoint P vc n d = some vc' ∧
      Built buf view ls (done ++ [.checkpoint n d]) vc' := by
  obtain ⟨hmod, hge, hle, -⟩ := hr
  obtain ⟨h0, hlt, hint⟩ := ckpt_index (P := P) hge hle
  have hls := hb.ls_eq
  have hlt' : ((n - ls) / P.ckptInterval).toNat < vc.ckpts.length := by
    rw [hb.ckpts_length]
    exact hlt
  simp only [addCheckpoint, hls, hmod, hge, hle, and_self,
    if_true, hint, Option.some.injEq, exists_eq_left']
  constructor
  case ckpts =>
    intro m e hm
    rw [getD_set _ _ _ _ _ hlt']
    simp only [List.mem_append, List.mem_singleton, Add.checkpoint.injEq] at hm
    rcases hm with hm | ⟨rfl, rfl⟩
    · have hne : ((n - ls) / P.ckptInterval).toNat ≠ ((m - ls) / P.ckptInterval).toNat := by
        intro h
        have hm0 : 0 ≤ (m - ls) / P.ckptInterval :=
          Int.ediv_nonneg (by have := (hdone m e hm).2; omega) (by omega)
        have heq : (n - ls) / P.ckptInterval = (m - ls) / P.ckptInterval := by omega
        exact hnew m e hm (ckpt_index_inj hmod (hdone m e hm).1 heq).symm
      rw [if_neg hne]
      exact hb.ckpts m e hm
    · rw [if_pos rfl]
  case ckpts_free =>
    intro k hk
    have hne : ((n - ls) / P.ckptInterval).toNat ≠ k := by
      have := hk n d (by simp)
      omega
    rw [getD_set _ _ _ _ _ hlt', if_neg hne]
    exact hb.ckpts_free k fun m e hm => hk m e (by simp [hm])
  case ckpts_lt =>
    intro m e hm
    simp only [List.mem_append, List.mem_singleton, Add.checkpoint.injEq] at hm
    rcases hm with hm | ⟨rfl, rfl⟩
    · have := hb.ckpts_lt m e hm
      simp only
      split <;> omega
    · simp only
      split <;> omega
  case ckpts_top =>
    intro h
    simp only at h ⊢
    split
    · exact ⟨n, d, by simp, by omega⟩
    · rename_i hle'
      obtain ⟨m, e, hm, he⟩ := hb.ckpts_top (by omega)
      exact ⟨m, e, by simp [hm], he⟩
  case v_eq => exact hb.v_eq
  case ls_eq => first | exact hls | rfl
  case ckpts_length => simpa using hb.ckpts_length
  case prepared_length => exact hb.prepared_length
  case reqInfo_length => exact hb.reqInfo_length
  case reqs => simpa using hb.reqs
  case holes => simpa using hb.holes
  case reqs_lt => simpa using hb.reqs_lt
  case reqs_top => simpa using hb.reqs_top
  case fresh => exact hb.fresh
  case bits => simpa [Undisturbed] using hb.bits

/-- `index` of an added request, and its bound. -/
theorem req_index {n : Int} (h1 : ls < n) (h2 : n ≤ ls + P.maxOut) :
    toInt (n - ls - 1) = n - ls - 1 ∧ (n - ls - 1).toNat < P.maxOut ∧
      n - ls - 1 < preparedSize P * 64 := by
  have hM := P.maxOut_lt
  refine ⟨toInt_eq_self (by omega) (by omega), by omega, ?_⟩
  unfold preparedSize
  omega

theorem getD_modify {α : Type} (l : List α) (i j : Nat) (f : α → α) (d : α) (h : i < l.length) :
    (l.modify i f).getD j d = if i = j then f (l.getD j d) else l.getD j d := by
  simp only [List.getD_eq_getElem?_getD, List.getElem?_modify]
  split
  · subst_vars; simp [h]
  · simp

/-- Marking request `n` as prepared disturbs the indices that share its bit. -/
theorem undisturbed_snoc {n v lv : Int} {d : Digest} {p : Bool} {i : Nat} :
    Undisturbed P buf ls (done ++ [.request n v lv d p]) i ↔
      Undisturbed P buf ls done i ∧
        (p = true → (n - ls - 1) / 64 = i / 64 → (n - ls - 1) % 32 ≠ i % 32) := by
  simp only [Undisturbed, List.mem_append, List.mem_singleton, Add.request.injEq]
  constructor
  · rintro ⟨h1, h2⟩
    exact ⟨⟨h1, fun m v lv d hm => h2 m v lv d (.inl hm)⟩,
      fun hp => h2 n v lv d (.inr ⟨rfl, rfl, rfl, rfl, hp.symm⟩)⟩
  · rintro ⟨⟨h1, h2⟩, h3⟩
    refine ⟨h1, fun m v' lv' d' hm => ?_⟩
    rcases hm with hm | ⟨rfl, -, -, -, hp⟩
    · exact h2 m v' lv' d' hm
    · exact h3 hp.symm

/-- The bitmap after `mark`. -/
theorem mark_bits (hb : Built buf view ls done vc) {n v lv : Int} {d : Digest} (h1 : ls < n)
    (h2 : n ≤ ls + P.maxOut) :
    let w := vc.prepared.modify ((n - ls - 1).toNat / 64) (· ||| maskOf (n - ls - 1).toNat)
    w.length = preparedSize P ∧ ∀ i : Nat, i < preparedSize P * 64 →
      (w.getD (i / 64) 0 &&& maskOf i = 0 ↔
        Undisturbed P buf ls (done ++ [.request n v lv d true]) i) := by
  obtain ⟨-, hk, hp⟩ := req_index (P := P) h1 h2
  have hlt : (n - ls - 1).toNat / 64 < vc.prepared.length := by
    rw [hb.prepared_length]
    unfold preparedSize at hp ⊢
    omega
  refine ⟨by simpa using hb.prepared_length, fun i hi => ?_⟩
  rw [undisturbed_snoc, ← hb.bits i hi, getD_modify _ _ _ _ _ hlt]
  have hm := maskOf_and_ne_zero (n - ls - 1).toNat i
  split
  · rename_i hword
    have hor := or_and_ne_zero (vc.prepared.getD (i / 64) 0) (maskOf (n - ls - 1).toNat) (maskOf i)
    have hmod : (n - ls - 1).toNat % 32 = i % 32 ↔ (n - ls - 1) % 32 = i % 32 := by omega
    have hdiv : (n - ls - 1) / 64 = i / 64 := by omega
    rw [← not_iff_not, ← Ne, hor, hm, hmod]
    simp only [true_imp_iff, hdiv]
    tauto
  · rename_i hword
    have hdiv : (n - ls - 1) / 64 ≠ i / 64 := by omega
    simp [hdiv]

/-- The request entries after `add_request`. -/
theorem reqInfo_set (hb : Built buf view ls done vc) {n v lv : Int} {d : Digest} (h1 : ls < n)
    (h2 : n ≤ ls + P.maxOut) (nReqs j : Nat) :
    ((vc.reqInfo.set (n - ls - 1).toNat ⟨lv, v, d⟩).mapIdx fun i ri =>
      if nReqs ≤ i ∧ i < (n - ls - 1).toNat then
        { ri with v := -1, lv := -1 } else ri).getD j default =
    if j = (n - ls - 1).toNat then ⟨lv, v, d⟩
    else if nReqs ≤ j ∧ j < (n - ls - 1).toNat then
  { vc.reqInfo.getD j default with v := -1, lv := -1 }
    else vc.reqInfo.getD j default := by
  obtain ⟨-, hk, -⟩ := req_index (P := P) h1 h2
  have hlt : (n - ls - 1).toNat < vc.reqInfo.length := by rw [hb.reqInfo_length]; exact hk
  by_cases hj : j < vc.reqInfo.length
  · simp only [List.getD_eq_getElem?_getD, List.getElem?_mapIdx, List.getElem?_set, hlt, if_true]
    by_cases hjk : j = (n - ls - 1).toNat
    · subst hjk
      simp
    · rw [if_neg (Ne.symm hjk), if_neg hjk]
      rw [List.getElem?_eq_getElem hj]
      simp
  · have hjk : j ≠ (n - ls - 1).toNat := by omega
    rw [if_neg hjk, if_neg (by omega)]
    simp [List.getD_eq_getElem?_getD, hj]

/-- Storing request `n` at its index, with holes below it, and the bitmap `w`. -/
theorem built_request (hb : Built buf view ls done vc) {n v lv : Int} {d : Digest} {p : Bool}
    (h1 : ls < n) (h2 : n ≤ ls + P.maxOut)
    (hnew : ∀ m v lv d p, .request m v lv d p ∈ done → ls < m ∧ m ≠ n) {w : List (BitVec 64)}
    {r : List ReqInfo} {k : Nat} (hk : (k : Int) = n - ls - 1) (hw : w.length = preparedSize P)
    (hbits : ∀ i : Nat, i < preparedSize P * 64 →
      (w.getD (i / 64) 0 &&& maskOf i = 0 ↔ Undisturbed P buf ls (done ++ [.request n v lv d p]) i))
    (hrl : r.length = P.maxOut)
    (hr : ∀ j, r.getD j default = if j = k then ⟨lv, v, d⟩
      else if vc.nReqs ≤ j ∧ j < k then { vc.reqInfo.getD j default with v := -1, lv := -1 }
      else vc.reqInfo.getD j default) :
    Built buf view ls (done ++ [.request n v lv d p])
      { vc with prepared := w, reqInfo := r, nReqs := max vc.nReqs (k + 1) } := by
  constructor
  case reqs =>
    intro m v' lv' d' p' hm
    simp only [List.mem_append, List.mem_singleton, Add.request.injEq] at hm
    rw [hr]
    rcases hm with hm | ⟨rfl, rfl, rfl, rfl, rfl⟩
    · obtain ⟨hm1, hm2⟩ := hnew m v' lv' d' p' hm
      have hlt := hb.reqs_lt m v' lv' d' p' hm
      rw [if_neg (by omega), if_neg (by omega)]
      exact hb.reqs m v' lv' d' p' hm
    · rw [if_pos (by omega)]
  case holes =>
    intro j hj hfree
    have hne : j ≠ k := by
      have := hfree n v lv d p (by simp)
      omega
    have hfree' : ∀ m v lv d p, .request m v lv d p ∈ done → m - ls - 1 ≠ j :=
      fun m v lv d p hm => hfree m v lv d p (by simp [hm])
    simp only at hj
    rw [hr, if_neg hne]
    split
    · rename_i hjk
      rw [hb.fresh j hjk.1]
      simp
    · exact hb.holes j (by omega) hfree'
  case reqs_lt =>
    intro m v' lv' d' p' hm
    simp only [List.mem_append, List.mem_singleton, Add.request.injEq] at hm
    simp only
    rcases hm with hm | ⟨rfl, rfl, rfl, rfl, rfl⟩
    · have hlt := hb.reqs_lt m v' lv' d' p' hm
      omega
    · omega
  case reqs_top =>
    intro h
    by_cases hle : vc.nReqs ≤ k
    · refine ⟨n, v, lv, d, p, by simp, ?_⟩
      simp only
      omega
    · obtain ⟨m, v', lv', d', p', hm, he⟩ := hb.reqs_top (by omega)
      refine ⟨m, v', lv', d', p', by simp [hm], ?_⟩
      simp only
      omega
  case fresh =>
    intro j hj
    simp only at hj
    rw [hr, if_neg (by omega), if_neg (by omega)]
    exact hb.fresh j (by omega)
  case bits => exact hbits
  case v_eq => exact hb.v_eq
  case ls_eq => exact hb.ls_eq
  case ckpts_length => exact hb.ckpts_length
  case prepared_length => exact hw
  case reqInfo_length => exact hrl
  case ckpts => simpa using hb.ckpts
  case ckpts_free => simpa using hb.ckpts_free
  case ckpts_lt => simpa using hb.ckpts_lt
  case ckpts_top => simpa using hb.ckpts_top

theorem addRequest_built (hb : Built buf view ls done vc) {n v lv : Int} {d : Digest} {p : Bool}
    (hr : (Add.request n v lv d p).InRange P view ls)
    (hnew : ∀ m v lv d p, .request m v lv d p ∈ done → ls < m ∧ m ≠ n) :
    ∃ vc', addRequest P vc n v lv d p = some vc' ∧
      Built buf view ls (done ++ [.request n v lv d p]) vc' := by
  obtain ⟨h1, h2, -, h4, h5⟩ := hr
  obtain ⟨hint, hlt, hp⟩ := req_index (P := P) h1 h2
  have hk : ((n - ls - 1).toNat : Int) = n - ls - 1 := by omega
  -- the message with the bitmap already marked
  obtain ⟨w, hmark, hw, hbits⟩ : ∃ w, markIf P vc p (n - ls - 1) = some { vc with prepared := w } ∧
      w.length = preparedSize P ∧ ∀ i : Nat, i < preparedSize P * 64 →
        (w.getD (i / 64) 0 &&& maskOf i = 0 ↔
          Undisturbed P buf ls (done ++ [.request n v lv d p]) i) := by
    cases p with
    | true =>
      have hrange : 0 ≤ n - ls - 1 ∧ n - ls - 1 < preparedSize P * 64 := ⟨by omega, hp⟩
      exact ⟨_, by simp only [markIf, mark, hrange, and_self, if_true], mark_bits hb h1 h2⟩
    | false =>
      refine ⟨vc.prepared, rfl, hb.prepared_length, fun i hi => ?_⟩
      rw [undisturbed_snoc, hb.bits i hi]
      simp
  have hrl : vc.reqInfo.length = P.maxOut := hb.reqInfo_length
  simp only [addRequest, hb.ls_eq, hb.v_eq, h1, h2, h4,
    h5, and_self, if_true, hint, hmark, Option.bind_eq_bind,
    Option.bind_some]
  split
  · rename_i hle
    refine ⟨_, rfl, ?_⟩
    have := built_request hb h1 h2 hnew hk hw hbits (r := _) (by simpa using hrl)
      (reqInfo_set hb h1 h2 vc.nReqs)
    rw [max_eq_right (by omega)] at this
    simpa only [hb.v_eq, hb.ls_eq] using this
  · rename_i hle
    refine ⟨_, rfl, ?_⟩
    have :=
      built_request hb h1 h2 hnew hk hw hbits (r := vc.reqInfo.set (n - ls - 1).toNat ⟨lv, v, d⟩)
      (by simpa using hrl) (fun j => by
        rw [getD_set _ _ _ _ _ (by omega)]
        by_cases hj : j = (n - ls - 1).toNat
        · simp [hj]
        · rw [if_neg (Ne.symm hj), if_neg hj, if_neg (by omega)])
    rw [max_eq_left (by omega)] at this
    simpa only [hb.v_eq, hb.ls_eq] using this

theorem mem_filterMap_ckptSeqno {adds : List Add} {n : Int} :
    n ∈ adds.filterMap Add.ckptSeqno ↔ ∃ d, .checkpoint n d ∈ adds := by
  simp only [List.mem_filterMap]
  constructor
  · rintro ⟨a, ha, h⟩
    cases a with
    | checkpoint m d => obtain rfl := Option.some.inj h; exact ⟨d, ha⟩
    | request m v lv d p => cases h
  · rintro ⟨d, h⟩
    exact ⟨_, h, rfl⟩

theorem mem_filterMap_reqSeqno {adds : List Add} {n : Int} :
    n ∈ adds.filterMap Add.reqSeqno ↔ ∃ v lv d p, .request n v lv d p ∈ adds := by
  simp only [List.mem_filterMap]
  constructor
  · rintro ⟨a, ha, h⟩
    cases a with
    | checkpoint m d => cases h
    | request m v lv d p => obtain rfl := Option.some.inj h; exact ⟨v, lv, d, p, ha⟩
  · rintro ⟨v, lv, d, p, h⟩
    exact ⟨_, h, rfl⟩

/-- One more call: the two families of calls are handled by `addCheckpoint_built` and
`addRequest_built`. -/
theorem add_built (hb : Built buf view ls done vc) {a : Add} (hv : Valid P view ls (done ++ [a])) :
    ∃ vc', add P vc a = some vc' ∧ Built buf view ls (done ++ [a]) vc' := by
  have hr := hv.inRange a (by simp)
  cases a with
  | checkpoint n d =>
    have hnd := hv.ckpts_nodup
    rw [List.filterMap_append, List.nodup_append] at hnd
    apply addCheckpoint_built hb hr
    · rintro m e hm rfl
      exact hnd.2.2 m (mem_filterMap_ckptSeqno.2 ⟨e, hm⟩) m (by simp [Add.ckptSeqno]) rfl
    · intro m e hm
      obtain ⟨h1, h2, -⟩ := hv.inRange _ (List.mem_append_left _ hm)
      exact ⟨h1, h2⟩
  | request n v lv d p =>
    have hnd := hv.reqs_nodup
    rw [List.filterMap_append, List.nodup_append] at hnd
    apply addRequest_built hb hr
    intro m v' lv' d' p' hm
    obtain ⟨h1, -⟩ := hv.inRange _ (List.mem_append_left _ hm)
    refine ⟨h1, ?_⟩
    rintro rfl
    exact hnd.2.2 m (mem_filterMap_reqSeqno.2 ⟨_, _, _, _, hm⟩) m (by simp [Add.reqSeqno]) rfl

theorem Valid.append_left {xs ys : List Add} (hv : Valid P view ls (xs ++ ys)) :
    Valid P view ls xs := by
  refine ⟨fun a ha => hv.inRange a (List.mem_append_left _ ha), ?_, ?_⟩
  · have := hv.ckpts_nodup
    rw [List.filterMap_append, List.nodup_append] at this
    exact this.1
  · have := hv.reqs_nodup
    rw [List.filterMap_append, List.nodup_append] at this
    exact this.1

/-- The run lemma: valid calls all succeed, and build a message that `Built` describes. -/
theorem build_built {adds : List Add} (hv : Valid P view ls (done ++ adds))
    (hb : Built buf view ls done vc) :
    ∃ vc', adds.foldlM (add P) vc = some vc' ∧ Built buf view ls (done ++ adds) vc' := by
  induction adds generalizing done vc with
  | nil => exact ⟨vc, rfl, by simpa using hb⟩
  | cons a adds ih =>
    have hsplit : done ++ a :: adds = (done ++ [a]) ++ adds := by simp
    rw [hsplit] at hv ⊢
    obtain ⟨t, ht, hbt⟩ := add_built hb hv.append_left
    obtain ⟨vc', hrun, hb'⟩ := ih hv hbt
    exact ⟨vc', by simp [List.foldlM_cons, ht, hrun], hb'⟩

/-! ## What the queries answer -/

variable {adds : List Add} {n : Int}

theorem eq_of_nodup_filterMap {α β : Type} {f : α → Option β} {l : List α}
    (h : (l.filterMap f).Nodup) {a b : α} {x : β} (ha : a ∈ l) (hb : b ∈ l) (hfa : f a = some x)
    (hfb : f b = some x) : a = b := by
  induction l with
  | nil => cases ha
  | cons c l ih =>
    rcases List.mem_cons.1 ha with rfl | ha' <;> rcases List.mem_cons.1 hb with rfl | hb'
    · rfl
    · rw [List.filterMap_cons_some hfa, List.nodup_cons] at h
      exact absurd (List.mem_filterMap.2 ⟨b, hb', hfb⟩) h.1
    · rw [List.filterMap_cons_some hfb, List.nodup_cons] at h
      exact absurd (List.mem_filterMap.2 ⟨a, ha', hfa⟩) h.1
    · refine ih ?_ ha' hb'
      cases hc : f c with
      | none => rwa [List.filterMap_cons_none hc] at h
      | some y => rw [List.filterMap_cons_some hc, List.nodup_cons] at h; exact h.2

theorem ckptAt_of_mem (hv : Valid P view ls adds) {d : Digest} (h : .checkpoint n d ∈ adds) :
    ckptAt adds n = some d := by
  cases hc : ckptAt adds n with
  | none =>
    have := List.findSome?_eq_none_iff.1 hc _ h
    simp at this
  | some e =>
    obtain ⟨a, ha, hae⟩ := List.exists_of_findSome?_eq_some hc
    cases a with
    | request m v lv d p => simp at hae
    | checkpoint m e' =>
      simp only [Option.ite_none_right_eq_some, Option.some.injEq] at hae
      obtain ⟨rfl, rfl⟩ := hae
      have := eq_of_nodup_filterMap hv.ckpts_nodup ha h rfl rfl
      cases this
      rfl

theorem ckptAt_of_not_mem (h : ∀ d, .checkpoint n d ∉ adds) : ckptAt adds n = none := by
  refine List.findSome?_eq_none_iff.2 fun a ha => ?_
  cases a with
  | request m v lv d p => rfl
  | checkpoint m d =>
    simp only [ite_eq_right_iff, reduceCtorEq, imp_false]
    rintro rfl
    exact h d ha

theorem reqAt_of_mem (hv : Valid P view ls adds) {v lv : Int} {d : Digest} {p : Bool}
    (h : .request n v lv d p ∈ adds) : reqAt adds n = some (v, lv, d, p) := by
  cases hc : reqAt adds n with
  | none =>
    have := List.findSome?_eq_none_iff.1 hc _ h
    simp at this
  | some e =>
    obtain ⟨a, ha, hae⟩ := List.exists_of_findSome?_eq_some hc
    cases a with
    | checkpoint m d => simp at hae
    | request m v' lv' d' p' =>
      simp only [Option.ite_none_right_eq_some, Option.some.injEq] at hae
      obtain ⟨rfl, rfl⟩ := hae
      have := eq_of_nodup_filterMap hv.reqs_nodup ha h rfl rfl
      cases this
      rfl

theorem reqAt_of_not_mem (h : ∀ v lv d p, .request n v lv d p ∉ adds) : reqAt adds n = none := by
  refine List.findSome?_eq_none_iff.2 fun a ha => ?_
  cases a with
  | checkpoint m d => rfl
  | request m v lv d p =>
    simp only [ite_eq_right_iff, reduceCtorEq, imp_false]
    rintro rfl
    exact h v lv d p ha

theorem ckpt_iff (hv : Valid P view ls adds) (hb : Built buf view ls adds vc) :
    vc.ckpt P n = some (ckptAt adds n) ↔ CkptOk P ls adds n := by
  have hidx : ∀ {m e}, .checkpoint m e ∈ adds →
      (0 ≤ (m - ls) / P.ckptInterval ∧
        toInt ((m - ls) / P.ckptInterval) = (m - ls) / P.ckptInterval) ∧
        m % P.ckptInterval = 0 ∧ ls ≤ m := by
    intro m e hm
    obtain ⟨h1, h2, h3, -⟩ := hv.inRange _ hm
    obtain ⟨h4, -, h6⟩ := ckpt_index (P := P) h2 h3
    exact ⟨⟨h4, h6⟩, h1, h2⟩
  by_cases hcond : n % P.ckptInterval ≠ 0 ∨ n < ls
  · -- not a sequence number of a checkpoint
    have hnone : ckptAt adds n = none := ckptAt_of_not_mem fun d hd => by
      obtain ⟨-, h1, h2⟩ := hidx hd
      omega
    have hok : CkptOk P ls adds n := by intro h1 h2; omega
    rw [ckpt, hb.ls_eq, if_pos hcond, hnone]
    exact ⟨fun _ => hok, fun _ => rfl⟩
  have hmod : n % P.ckptInterval = 0 := by omega
  have hge : ls ≤ n := by omega
  set i := toInt ((n - ls) / P.ckptInterval) with hi
  by_cases hneg : i < 0
  · have hlt : ¬ (vc.nCkpts : Int) ≤ i := by omega
    have hnok : ¬ CkptOk P ls adds n := fun h => by have := (h hmod hge).1; omega
    simp only [ckpt, hb.ls_eq, if_neg hcond, ← hi, if_neg hlt, if_pos hneg, hnok, reduceCtorEq]
  have hself : ∀ d, .checkpoint n d ∈ adds → (n - ls) / P.ckptInterval = i :=
    fun d hd => (hidx hd).1.2.symm
  by_cases hex : ∃ m d, .checkpoint m d ∈ adds ∧ (m - ls) / P.ckptInterval = i
  · obtain ⟨m, d, hm, hmi⟩ := hex
    have hlt : ¬ (vc.nCkpts : Int) ≤ i := by have := hb.ckpts_lt m d hm; omega
    have hget : vc.ckpts.getD i.toNat 0 = d := hmi ▸ hb.ckpts m d hm
    have huniq : ∀ m' d', .checkpoint m' d' ∈ adds → (m' - ls) / P.ckptInterval = i →
      m' = m ∧ d' = d := by
      intro m' d' hm' hi'
      obtain rfl := ckpt_index_inj (hidx hm').2.1 (hidx hm).2.1 (hi'.trans hmi.symm)
      have := eq_of_nodup_filterMap hv.ckpts_nodup hm' hm rfl rfl
      cases this
      exact ⟨rfl, rfl⟩
    have hok : CkptOk P ls adds n ↔ (m = n ↔ d.isZero = false) := by
      constructor
      · intro h
        exact (h hmod hge).2 m d hm hmi
      · intro h _ _
        refine ⟨by omega, fun m' d' hm' hi' => ?_⟩
        obtain ⟨rfl, rfl⟩ := huniq m' d' hm' hi'
        exact h
    rw [hok]
    simp only [ckpt, hb.ls_eq, hcond, if_false, ← hi, hlt, hneg, hget]
    by_cases hmn : m = n
    · subst hmn
      rw [ckptAt_of_mem hv hm]
      cases d.isZero <;> simp
    · have hnone : ckptAt adds n = none :=
        ckptAt_of_not_mem fun d' hd' => hmn (huniq n d' hd' (hself d' hd')).1.symm
      rw [hnone]
      cases d.isZero <;> simp [hmn]
  · have hfree : ∀ m d, .checkpoint m d ∈ adds → (m - ls) / P.ckptInterval ≠ i :=
      fun m d hm h => hex ⟨m, d, hm, h⟩
    have hnone : ckptAt adds n = none := ckptAt_of_not_mem fun d hd => hfree n d hd (hself d hd)
    have hok : CkptOk P ls adds n := fun _ _ => ⟨by omega, fun m d hm h => absurd h (hfree m d hm)⟩
    have hget : vc.ckpts.getD i.toNat 0 = 0 := hb.ckpts_free i.toNat fun m d hm => by
      have := hfree m d hm
      omega
    have hz : Digest.isZero 0 = true := by decide
    simp only [ckpt, hb.ls_eq, hcond, if_false, ← hi, hneg, hget, hnone, hz, if_true, ite_self, hok]

theorem nReqs_le (hv : Valid P view ls adds) (hb : Built buf view ls adds vc) :
    vc.nReqs ≤ P.maxOut := by
  by_cases h0 : vc.nReqs = 0
  · omega
  · obtain ⟨m, v, lv, d, p, hm, he⟩ := hb.reqs_top h0
    obtain ⟨-, h2, -⟩ := hv.inRange _ hm
    omega

/-- `test` reads a clear bit exactly when it is undisturbed. -/
theorem test_eq (hb : Built buf view ls adds vc) {i : Int} (h0 : 0 ≤ i)
    (hi : i < preparedSize P * 64) :
    ∃ b, test P vc i = some b ∧ (b = false ↔ Undisturbed P buf ls adds i) := by
  have hbits := hb.bits i.toNat (by omega)
  rw [show ((i.toNat : Nat) : Int) = i by omega] at hbits
  refine ⟨_, by simp only [test, h0, hi, and_self, if_true]; rfl, ?_⟩
  rw [← hbits]
  simp

theorem not_undisturbed_of_prepared {v lv : Int} {d : Digest} (h : .request n v lv d true ∈ adds) :
    ¬ Undisturbed P buf ls adds (n - ls - 1) := fun hu => hu.2 n v lv d h rfl rfl

/-- What `proofs` and `req` find at index `i`: the entry of the request added there, or a hole. -/
theorem reqInfo_cases (hb : Built buf view ls adds vc) {i : Int} (h0 : 0 ≤ i) :
    (∃ m v lv d p, .request m v lv d p ∈ adds ∧ m - ls - 1 = i ∧ i < vc.nReqs ∧
      vc.reqInfo.getD i.toNat default = ⟨lv, v, d⟩) ∨
    ((∀ m v lv d p, .request m v lv d p ∈ adds → m - ls - 1 ≠ i) ∧
      (i < vc.nReqs → (vc.reqInfo.getD i.toNat default).v = -1 ∧
        (vc.reqInfo.getD i.toNat default).d = (buf.reqInfo.getD i.toNat default).d)) := by
  by_cases hex : ∃ m v lv d p, .request m v lv d p ∈ adds ∧ m - ls - 1 = i
  · obtain ⟨m, v, lv, d, p, hm, hi⟩ := hex
    exact .inl ⟨m, v, lv, d, p, hm, hi, hi ▸ hb.reqs_lt m v lv d p hm, hi ▸ hb.reqs m v lv d p hm⟩
  · have hfree : ∀ m v lv d p, .request m v lv d p ∈ adds → m - ls - 1 ≠ i :=
      fun m v lv d p hm h => hex ⟨m, v, lv, d, p, hm, h⟩
    refine .inr ⟨hfree, fun hlt => hb.holes i.toNat (by omega) fun m v lv d p hm => ?_⟩
    have := hfree m v lv d p hm
    omega

theorem reqs_iff (hv : Valid P view ls adds) (hb : Built buf view ls adds vc) :
    (vc.proofs P n = some (reqAt adds n) ∧
        (vc.ls < n → vc.req P n = some (reqAnswer (reqAt adds n)))) ↔
      ReqOk P buf ls adds n := by
  have hidx : ∀ {m v lv d p}, .request m v lv d p ∈ adds →
    ls < m ∧ toInt (m - ls - 1) = m - ls - 1 ∧ 0 ≤ v := by
    intro m v lv d p hm
    obtain ⟨h1, h2, h3, -⟩ := hv.inRange _ hm
    exact ⟨h1, (req_index (P := P) h1 h2).1, h3⟩
  have hM := nReqs_le hv hb
  have hps : P.maxOut ≤ preparedSize P * 64 := by unfold preparedSize; omega
  have hls := hb.ls_eq
  unfold ReqOk
  set i := toInt (n - ls - 1) with hi
  have hself : ∀ v lv d p, .request n v lv d p ∈ adds → n - ls - 1 = i :=
    fun v lv d p hm => (hidx hm).2.1.symm
  simp only [proofs, req, hls, ← hi]
  by_cases hneg : i < 0
  · -- a negative index: `proofs` finds nothing, and `req` fails its assertion
    have hnone : reqAt adds n = none := reqAt_of_not_mem fun v lv d p hm => by
      have := hself v lv d p hm
      have := (hidx hm).1
      omega
    have hlt : ¬ (vc.nReqs : Int) ≤ i := by omega
    have htest : test P vc i = none := by simp [test, show ¬ (0 : Int) ≤ i by omega]
    simp only [hneg, true_or, if_true, hnone, true_and, hlt, if_false, htest]
    constructor
    · intro h
      refine ⟨fun m v lv d p hm h' => ?_, fun hn => ?_⟩
      · have := (hidx hm).1
        omega
      · have := h hn
        simp [show ¬ n ≤ ls by omega] at this
    · rintro ⟨-, h⟩ hn
      have := (h hn).1
      omega
  have h0 : 0 ≤ i := by omega
  obtain ⟨m, v, lv, d, p, hm, hmi, hlt, hget⟩ | ⟨hfree, hhole⟩ := reqInfo_cases hb h0
  · -- the entry of request `m`, which is `n` unless the index wraps
    obtain ⟨b, htest, hb'⟩ := test_eq hb h0 (show i < preparedSize P * 64 by omega)
    have hv0 := (hidx hm).2.2
    have hnr : ¬ (vc.nReqs : Int) ≤ i := by omega
    have huniq : ∀ m' v' lv' d' p', .request m' v' lv' d' p' ∈ adds → m' - ls - 1 = i →
        m' = m ∧ v' = v ∧ lv' = lv ∧ d' = d ∧ p' = p := by
      intro m' v' lv' d' p' hm' hi'
      obtain rfl : m' = m := by omega
      have := eq_of_nodup_filterMap hv.reqs_nodup hm' hm rfl rfl
      cases this
      exact ⟨rfl, rfl, rfl, rfl, rfl⟩
    have hp : p = true → b = true := by
      rintro rfl
      have hnu : ¬ Undisturbed P buf ls adds (m - ls - 1) := not_undisturbed_of_prepared hm
      rw [hmi, ← hb'] at hnu
      simpa using hnu
    simp only [hneg, hnr, hget, show ¬ v < 0 by omega, or_self,
      if_false, htest, Option.bind_eq_bind, Option.bind_some]
    by_cases hmn : m = n
    · subst hmn
      have hlsm : ¬ m ≤ ls := by have := (hidx hm).1; omega
      rw [reqAt_of_mem hv hm]
      simp only [hlsm, if_false, Option.some.injEq, Prod.mk.injEq, true_and]
      constructor
      · rintro ⟨rfl, -⟩
        refine ⟨fun m' v' lv' d' p' hm' hi' => ?_,
          fun _ => ⟨h0, fun hf => absurd hmi (hf m v lv d b hm)⟩⟩
        obtain ⟨rfl, rfl, rfl, rfl, rfl⟩ := huniq m' v' lv' d' p' hm' hi'
        exact ⟨rfl, fun hpf => hb'.1 hpf⟩
      · rintro ⟨h1, -⟩
        have hbp : b = p := by
          cases p with
          | true => exact hp rfl
          | false => exact hb'.2 ((h1 m v lv d false hm hmi).2 rfl)
        subst hbp
        refine ⟨rfl, fun _ => ?_⟩
        cases b <;> simp [reqAnswer]
    · constructor
      · rintro ⟨h, -⟩
        have hnone : reqAt adds n = none := reqAt_of_not_mem fun v' lv' d' p' hn =>
          hmn (huniq n v' lv' d' p' hn (hself v' lv' d' p' hn)).1.symm
        rw [hnone] at h
        simp at h
      · rintro ⟨h1, -⟩
        exact absurd (h1 m v lv d p hm hmi).1 hmn
  · -- no request was added at this index
    have hnone : reqAt adds n = none :=
      reqAt_of_not_mem fun v lv d p hm => hfree n v lv d p hm (hself v lv d p hm)
    have habove : (i < vc.nReqs) ↔ ∃ m v lv d p, .request m v lv d p ∈ adds ∧ i < m - ls - 1 := by
      constructor
      · intro hlt
        obtain ⟨m, v, lv, d, p, hm, he⟩ := hb.reqs_top (by omega)
        have := hfree m v lv d p hm
        exact ⟨m, v, lv, d, p, hm, by omega⟩
      · rintro ⟨m, v, lv, d, p, hm, hlt⟩
        have := hb.reqs_lt m v lv d p hm
        omega
    have hproofs : i < 0 ∨ (vc.nReqs : Int) ≤ i ∨ (vc.reqInfo.getD i.toNat default).v < 0 := by
      by_cases hlt : i < vc.nReqs
      · have := (hhole hlt).1
        exact .inr (.inr (by omega))
      · exact .inr (.inl (by omega))
    simp only [hproofs, if_true, hnone, true_and]
    refine ⟨fun h => ⟨fun m v lv d p hm h' => absurd h' (hfree m v lv d p hm),
      fun hn => ⟨h0, fun _ hab => ?_⟩⟩, fun h hn => ?_⟩
    · have hlt := habove.2 hab
      obtain ⟨b, htest, hb'⟩ := test_eq hb h0 (show i < preparedSize P * 64 by omega)
      have hreq := h hn
      simp only [show ¬ n ≤ ls by omega, if_false, show ¬ (vc.nReqs : Int) ≤ i by omega,
        htest, Option.bind_eq_bind,
        Option.bind_some] at hreq
      cases b with
      | false => exact .inl (hb'.1 rfl)
      | true =>
        simp only [Bool.not_true, Bool.false_eq_true, if_false,
          reqAnswer, Option.some.injEq, Prod.mk.injEq] at hreq
        exact .inr ((hhole hlt).2 ▸ hreq.2)
    · by_cases hlt : i < vc.nReqs
      · obtain ⟨b, htest, hb'⟩ := test_eq hb h0 (show i < preparedSize P * 64 by omega)
        simp only [show ¬ n ≤ ls by omega, if_false, show ¬ (vc.nReqs : Int) ≤ i by omega,
          htest, Option.bind_eq_bind,
          Option.bind_some]
        cases b with
        | false => simp [reqAnswer]
        | true =>
          rcases (h.2 hn).2 hfree (habove.1 hlt) with hu | hd
          · exact absurd (hb'.2 hu) (by simp)
          · simp [reqAnswer, -List.getD_eq_getElem?_getD, (hhole hlt).1, (hhole hlt).2, hd]
      · simp [show ¬ n ≤ ls by omega, show (vc.nReqs : Int) ≤ i by omega, reqAnswer]

theorem lastCkpt_iff (hv : Valid P view ls adds) (hb : Built buf view ls adds vc) :
    LastCkptRight P vc adds ↔ ((∃ n d, .checkpoint n d ∈ adds) → ls % P.ckptInterval = 0) := by
  have hc : (0 : Int) < P.ckptInterval := by exact_mod_cast P.ckptInterval_pos
  by_cases h0 : vc.nCkpts = 0
  · have hno : ∀ n d, .checkpoint n d ∉ adds := fun n d hn => by
      obtain ⟨-, h2, h3, -⟩ := hv.inRange _ hn
      have h4 := (ckpt_index (P := P) h2 h3).1
      have h5 := hb.ckpts_lt n d hn
      omega
    constructor
    · rintro - ⟨n, d, hn⟩
      exact absurd hn (hno n d)
    · intro _
      exact .inl ⟨by simp [lastCkpt, h0], hno⟩
  · obtain ⟨n, d, hn, he⟩ := hb.ckpts_top h0
    obtain ⟨h1, h2, h3, h4⟩ := hv.inRange _ hn
    have hk := (ckpt_index (P := P) h2 h3).1
    have hget : vc.ckpts.getD (vc.nCkpts - 1) 0 = d := by
      rw [← hb.ckpts n d hn]
      congr 1
      omega
    have hlast :
      vc.lastCkpt P = some (some (d, (n - ls) / P.ckptInterval * P.ckptInterval + ls)) := by
      have hcast : ((vc.nCkpts - 1 : Nat) : Int) = (n - ls) / P.ckptInterval := by omega
      simp only [lastCkpt, show 0 < vc.nCkpts by omega,
        if_true, hget, h4, if_false, hb.ls_eq, hcast]
    constructor
    · rintro (⟨hnone, -⟩ | ⟨m, e, hm, hmem, -⟩) -
      · rw [hlast] at hnone
        cases hnone
      · -- the number that `last_ckpt` computes was added, so it is a multiple of the interval
        rw [hlast] at hm
        obtain ⟨-, rfl⟩ := Prod.mk.inj (Option.some.inj (Option.some.inj hm))
        have hdvd := Int.dvd_of_emod_eq_zero (hv.inRange _ hmem).1
        exact Int.emod_eq_zero_of_dvd ((Int.dvd_add_right (Int.dvd_mul_left _ _)).1 hdvd)
    · intro h
      have hls : (P.ckptInterval : Int) ∣ ls := Int.dvd_of_emod_eq_zero (h ⟨n, d, hn⟩)
      have hexact : ∀ m e, .checkpoint m e ∈ adds →
        (m - ls) / P.ckptInterval * P.ckptInterval = m - ls := fun m e hm =>
        Int.ediv_mul_cancel (Int.dvd_sub (Int.dvd_of_emod_eq_zero (hv.inRange _ hm).1) hls)
      refine .inr ⟨n, d, ?_, hn, fun m e hm => ?_⟩
      · rw [hlast, hexact n d hn]
        simp
      · have hlt := hb.ckpts_lt m e hm
        have hle : (m - ls) / P.ckptInterval ≤ (n - ls) / P.ckptInterval := by omega
        have := Int.mul_le_mul_of_nonneg_right hle hc.le
        rw [hexact m e hm, hexact n d hn] at this
        omega

theorem maxSeqno_right (hv : Valid P view ls adds) (hb : Built buf view ls adds vc) :
    MaxSeqnoRight vc adds := by
  by_cases h0 : vc.nReqs = 0
  · refine .inl ⟨by simp [maxSeqno, h0], fun n v lv d p hn => ?_⟩
    have h1 := (hv.inRange _ hn).1
    have h2 := hb.reqs_lt n v lv d p hn
    omega
  · obtain ⟨n, v, lv, d, p, hn, he⟩ := hb.reqs_top h0
    refine .inr ⟨n, v, lv, d, p, ?_, hn, fun m v' lv' d' p' hm => ?_⟩
    · simp only [maxSeqno, hb.ls_eq]
      omega
    · have := hb.reqs_lt m v' lv' d' p' hm
      omega

/-- **When a view-change message returns what was added to it.** Valid calls, in any order, in any
buffer, build a message. Its answers for `n` are those of the calls exactly when the `int` index of
`n` is that of no other entry, the digest of its checkpoint does not look null, and its bit in the
bitmap is undisturbed where the request was not added as prepared; `last_ckpt` is right exactly when
`ls` is a multiple of the interval, and `max_seqno` always. -/
theorem viewChange_roundtrip (buf : Buffer P) (id : Nat) (hv : Valid P view ls adds) :
    ∃ vc, build P buf view ls id adds = some vc ∧
      (∀ n, Answers P vc adds n ↔ CkptOk P ls adds n ∧ ReqOk P buf ls adds n) ∧
      (LastCkptRight P vc adds ↔ ((∃ n d, .checkpoint n d ∈ adds) → ls % P.ckptInterval = 0)) ∧
      MaxSeqnoRight vc adds := by
  have hinit : Built buf view ls [] (init P buf view ls id) := init_built
  obtain ⟨vc, hbuild, hb⟩ := build_built (by simpa using hv) hinit
  refine ⟨vc, hbuild, fun n => ?_, lastCkpt_iff hv hb, maxSeqno_right hv hb⟩
  rw [← ckpt_iff hv hb, ← reqs_iff hv hb]
  exact ⟨fun h => ⟨h.ckpt, h.proofs, h.req⟩, fun h => ⟨h.1, h.2.1, h.2.2⟩⟩

/-- A message with a stable checkpoint and two requests, `129` and `131`; `130` is a hole. -/
theorem viewChange_roundtrip_default :
    let adds : List Add := [.checkpoint 128 7, .request 131 1 1 6 false, .request 129 0 0 5 true]
    ∃ vc, build .default (.filled .default 0) 3 128 0 adds = some vc ∧
      Answers .default vc adds 131 ∧
      LastCkptRight .default vc adds ∧ MaxSeqnoRight vc adds := by
  intro adds
  have hv : Valid .default 3 128 adds := by
    refine ⟨?_, by decide, by decide⟩
    simp only [adds, List.mem_cons, List.not_mem_nil, or_false,
      forall_eq_or_imp, forall_eq, Add.InRange]
    decide
  obtain ⟨vc, hbuild, hans, hlast, hmax⟩ := viewChange_roundtrip (.filled .default 0) 0 hv
  refine ⟨vc, hbuild, (hans 131).2 ⟨?_, ?_⟩, hlast.2 fun _ => by decide, hmax⟩
  · intro h
    exact absurd h (by decide)
  · have hi : toInt (131 - 128 - 1) = 2 := by decide
    refine ⟨?_, fun _ => ⟨by decide, fun hfree => ?_⟩⟩
    · rw [hi]
      rintro m v lv d p hm hmi
      obtain rfl : m = 131 := by omega
      refine ⟨rfl, fun _ => ⟨by decide, ?_⟩⟩
      rintro m v lv d hm hword hbit
      simp only [adds, List.mem_cons, List.not_mem_nil,
        or_false, reduceCtorEq, Add.request.injEq, false_or] at hm
      obtain ⟨-, -, -, -, h⟩ | ⟨rfl, -⟩ := hm
      · exact h
      · exact absurd hbit (by decide)
    · exact absurd hi.symm (hfree 131 1 1 6 false (by decide))

/-- **A request added as not prepared is reported as prepared.** In a clean buffer, `33` shares the
bit of `1`; and where the block that a message is built in had bit `128` set, `init` leaves it
set. -/
theorem viewChange_reports_unprepared :
    (build .default (.filled .default 0) 1 0 0 [.request 1 0 0 7 true,
          .request 33 0 0 9 false]).bind (·.req .default 33) =
        some (0, 9) ∧
      reqAnswer (reqAt [.request 1 0 0 7 true, .request 33 0 0 9 false] 33) = (-1, 0) ∧
    (build .default (.filled .default 1) 1 0 0 [.request 129 0 0 9 false]).bind
      (·.req .default 129) = some (0, 9) ∧
      reqAnswer (reqAt [.request 129 0 0 9 false] 129) = (-1, 0) := by
  decide +kernel

end ViewChange

end TinyBFT
