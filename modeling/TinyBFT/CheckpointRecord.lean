import TinyBFT.Node
import TinyBFT.Log
import TinyBFT.Lib.Run
import Mathlib.Data.Nat.ModEq

/-!
# Checkpoint records and their logs (`Checkpoint_rec.cc`, `checkpoint_record{,_log}.cc`)

A checkpoint record keeps the digest of the state at the checkpoint and copies of the partitions
that were modified since. The heap build keeps records in a `Log`, the static build in a
`CheckpointRecordLog`.

| here | there |
| --- | --- |
| `Part`, `PartKey`      | `Part` and `BlockCopy` (`Part.h:88-112`), level and index |
| `CheckpointRec`        | `Checkpoint_rec`: `sd` and the map `parts` |
| `CheckpointRec.clear`  | `Checkpoint_rec.cc:22-37`: only `if (!is_cleared())` |
| `CheckpointRecord`     | `CheckpointRecord`: `lm == -1` marks a free entry of `partitions_` and `blocks_` |
| `CheckpointRecord.clear` | `checkpoint_record.cc:56-74`: returns early `if (num_entries_ == 0)`, with `sd` as it is |
| `append`, `appendr`, `fetch`, `numEntries` | the methods of the same names, `none` a failed `th_assert` |
| `CheckpointRecordLog`  | `head_`, `fetch_seqno_`, `head_index_`, `records_` |
| `recordIndex`, `fetch`, `truncate`, `clear` | `checkpoint_record_log.h:62-68`, `checkpoint_record_log.cc:18-59` |

The two builds answer alike as long as every record that is cleared has an entry exactly if the
first word of its digest is not zero, and no partition is appended that `enforce_bound` has marked
with `lm = -1` (`ActsAlike`). The static one differs on the checkpoints that nothing was modified
after, and takes a marked partition for a free entry.

In the build that has these records `PSize[level]` is the number of nodes of a level
(`Partition.cc:47`), so the loops of `clear` reach every entry.
-/

namespace TinyBFT

structure Part where
  lm : Int
  d : Digest
  data : Block
deriving DecidableEq, Repr, Inhabited

/-- Level and index of a partition. -/
abbrev PartKey := Nat × Nat

/-! ## The records of the heap build -/

structure CheckpointRec where
  sd : Digest
  parts : List (PartKey × Part)
deriving DecidableEq, Repr

namespace CheckpointRec

def new : CheckpointRec := ⟨0, []⟩

def isCleared (r : CheckpointRec) : Bool := r.sd.isZero

def clear (r : CheckpointRec) : CheckpointRec := if r.isCleared then r else new

def fetch (r : CheckpointRec) (k : PartKey) : Option Part := r.parts.lookup k

def append (r : CheckpointRec) (k : PartKey) (p : Part) : Option CheckpointRec :=
  if (r.fetch k).isSome then none else some { r with parts := (k, p) :: r.parts }

def appendr (r : CheckpointRec) (k : PartKey) (p : Part) : Option CheckpointRec :=
  if (r.fetch k).isSome then some r else r.append k p

def numEntries (r : CheckpointRec) : Nat := r.parts.length

/-- `State::digest` of a sequence number with this record. -/
def digest (r : CheckpointRec) : Option Digest := if r.isCleared then none else some r.sd

end CheckpointRec

/-! ## The records of the static build -/

structure CheckpointRecord where
  sd : Digest
  parts : PartKey → Part
  numEntries : Nat

namespace CheckpointRecord

def noPart : Part := { (default : Part) with lm := -1 }

def new : CheckpointRecord := ⟨0, fun _ => noPart, 0⟩

def isCleared (r : CheckpointRecord) : Bool := r.sd.isZero

def clear (r : CheckpointRecord) : CheckpointRecord :=
  if r.numEntries = 0 then r else ⟨0, fun k => { r.parts k with lm := -1 }, 0⟩

def fetch (r : CheckpointRecord) (k : PartKey) : Option Part :=
  if (r.parts k).lm = -1 then none else some (r.parts k)

def store (r : CheckpointRecord) (k : PartKey) (p : Part) : CheckpointRecord :=
  { r with parts := Function.update r.parts k p, numEntries := r.numEntries + 1 }

def append (r : CheckpointRecord) (k : PartKey) (p : Part) : Option CheckpointRecord :=
  if (r.parts k).lm = -1 then some (r.store k p) else none

def appendr (r : CheckpointRecord) (k : PartKey) (p : Part) : Option CheckpointRecord :=
  if (r.parts k).lm = -1 then some (r.store k p) else some r

/-- `State::digest` of a sequence number with this record. -/
def digest (r : CheckpointRecord) : Option Digest := if r.isCleared then none else some r.sd

end CheckpointRecord

structure CheckpointRecordLog where
  head : Int
  fetchSeqno : Int
  headIndex : Nat
  records : Nat → CheckpointRecord

namespace CheckpointRecordLog

variable (P : Params)

/-- `MAX_SIZE - 1`: the records of the multiples of the interval in the window. -/
def slots : Nat := P.maxOut / P.ckptInterval + 1

def new : CheckpointRecordLog := ⟨0, -1, 0, fun _ => CheckpointRecord.new⟩

def withinRange (l : CheckpointRecordLog) (n : Int) : Bool := l.head ≤ n && n ≤ l.head + P.maxOut

/-- `record_index`; the last record is the one for `fetch_seqno_`. -/
def recordIndex (l : CheckpointRecordLog) (n : Int) : Nat :=
  if n % P.ckptInterval ≠ 0 then
    slots P else (l.headIndex + ((n - l.head) / P.ckptInterval).toNat) % slots P

def fetch (l : CheckpointRecordLog) (n : Int) : Option CheckpointRecord :=
  if l.withinRange P n && (n % P.ckptInterval == 0 || l.fetchSeqno == n) then
    some (l.records (l.recordIndex P n)) else none

/-- Write through the reference that `fetch` returns. -/
def set (l : CheckpointRecordLog) (n : Int) (r : CheckpointRecord) : CheckpointRecordLog :=
  { l with records := Function.update l.records (l.recordIndex P n) r }

/-- `clear`: every record. -/
def clear (l : CheckpointRecordLog) (h : Int) : CheckpointRecordLog :=
  { l with head := h, headIndex := 0, records := fun k => (l.records k).clear }

/-- The loop of `truncate`. -/
def clearBelow (l : CheckpointRecordLog) (newHead : Int) : Nat → CheckpointRecord := fun k =>
  if (List.range ((newHead - l.head + P.ckptInterval - 1) / P.ckptInterval).toNat).any fun j :
    Nat =>
      l.recordIndex P (l.head + j * P.ckptInterval) == k then (l.records k).clear
  else l.records k

def truncate (l : CheckpointRecordLog) (newHead : Int) : Option CheckpointRecordLog :=
  if newHead % P.ckptInterval ≠ 0 then none
  else if newHead ≤ l.head then some l
  else if !l.withinRange P newHead then some (l.clear newHead)
  else
    let records := l.clearBelow P newHead
    some { l with
      head := newHead, headIndex := l.recordIndex P newHead
      records := if l.fetchSeqno < newHead then
        Function.update records (slots P) (records (slots P)).clear else records }

def setFetchSeqno (l : CheckpointRecordLog) (n : Int) : CheckpointRecordLog :=
  { l with
    fetchSeqno := n
    records :=
      if l.fetchSeqno ≠ -1 then Function.update l.records (slots P) (l.records (slots P)).clear
      else l.records }

end CheckpointRecordLog

/-! ## The operations of `State` on the two logs -/

/-- What `State` does with the record of a checkpoint, and `discard_checkpoint`. -/
inductive RecordOp
  /-- `clog.fetch(n).sd = d`, in `checkpoint` and `rollback`. -/
  | setDigest (n : Int) (d : Digest)
  | append (n : Int) (k : PartKey) (p : Part)
  | appendr (n : Int) (k : PartKey) (p : Part)
  | clear (n : Int)
  | truncate (h : Int)
  /-- `clog.clear(h)`, in `shutdown` and `restart`. -/
  | clearLog (h : Int)
deriving DecidableEq, Repr

namespace RecordOp

variable (P : Params)

/-- The size of the heap build's log. -/
def logSize : Nat := P.maxOut * 2

def heapUpdate (l : Log CheckpointRec) (n : Int) (f : CheckpointRec → Option CheckpointRec) :
    Option (Log CheckpointRec) := do
  let r ← l.fetch (logSize P) n
  some (l.set (logSize P) n (← f r))

def heapStep (l : Log CheckpointRec) : RecordOp → Option (Log CheckpointRec)
  | setDigest n d => heapUpdate P l n fun r => some { r with sd := d }
  | append n k p => heapUpdate P l n fun r => r.append k p
  | appendr n k p => heapUpdate P l n fun r => r.appendr k p
  | clear n => heapUpdate P l n fun r => some r.clear
  | truncate h => some (l.truncate (logSize P) CheckpointRec.clear h)
  | clearLog h => some ⟨h, fun k => (l.elems k).clear⟩

def staticUpdate (l : CheckpointRecordLog) (n : Int)
    (f : CheckpointRecord → Option CheckpointRecord) :
    Option CheckpointRecordLog := do
  let r ← l.fetch P n
  some (l.set P n (← f r))

def staticStep (l : CheckpointRecordLog) : RecordOp → Option CheckpointRecordLog
  | setDigest n d => staticUpdate P l n fun r => some { r with sd := d }
  | append n k p => staticUpdate P l n fun r => r.append k p
  | appendr n k p => staticUpdate P l n fun r => r.appendr k p
  | clear n => staticUpdate P l n fun r => some r.clear
  | truncate h => l.truncate P h
  | clearLog h => some (l.clear h)

/-- The operation is on a multiple of the interval, in the window. -/
def Valid (s : CheckpointRecordLog × Log CheckpointRec) : RecordOp → Prop
  | setDigest n _ | clear n | append n _ _ | appendr n _ _ => n % P.ckptInterval = 0 ∧
      s.1.withinRange P n = true
  | truncate h | clearLog h => h % P.ckptInterval = 0

instance (s : CheckpointRecordLog × Log CheckpointRec) : ∀ op, Decidable (Valid P s op)
  | setDigest _ _ | clear _ | append _ _ _ | appendr _ _ _ => inferInstanceAs (Decidable (_ ∧ _))
  | truncate h | clearLog h => inferInstanceAs (Decidable (h % P.ckptInterval = 0))

/-- Both logs take the operation. -/
def step (s : CheckpointRecordLog × Log CheckpointRec) (op : RecordOp) :
    Option (CheckpointRecordLog × Log CheckpointRec) := do
  some (← staticStep P s.1 op, ← heapStep P s.2 op)

/-- The logs that `State` starts with. -/
def start : CheckpointRecordLog × Log CheckpointRec :=
  (CheckpointRecordLog.new, ⟨0, fun _ => CheckpointRec.new⟩)

/-- Clearing the record has the same effect in both builds: it has entries exactly if it is in
use. -/
def Alike (r : CheckpointRecord) : Prop := r.isCleared = true ↔ r.numEntries = 0

/-- Every record that the operation clears is cleared alike, the loop of the heap build's `truncate`
does not wrap, and the partition that is stored is not one that the static build takes for a free
entry. -/
def ActsAlike (s : CheckpointRecordLog × Log CheckpointRec) : RecordOp → Prop
  | append _ _ p | appendr _ _ p => p.lm ≠ -1
  | clear n => Alike (s.1.records (s.1.recordIndex P n))
  | truncate h => s.1.head < h →
      (∀ n : Int, n % P.ckptInterval = 0 → s.1.withinRange P n = true →
        n < h → Alike (s.1.records (s.1.recordIndex P n))) ∧
      s.2.NoWrap (logSize P) h
  | clearLog _ =>
    ∀ n : Int, n % P.ckptInterval = 0 → s.1.withinRange P n = true →
      Alike (s.1.records (s.1.recordIndex P n))
  | setDigest _ _ => True

/-! ## Equal answers -/

/-- Two records that answer alike. -/
structure RecSim (a : CheckpointRecord) (b : CheckpointRec) : Prop where
  sd : a.sd = b.sd ∨ a.isCleared = true ∧ b.isCleared = true
  fetch : ∀ k, a.fetch k = b.fetch k
  num : a.numEntries = b.numEntries

/-- A record that is not in use. -/
structure Blank (b : CheckpointRec) : Prop where
  cleared : b.isCleared = true
  parts : b.parts = []

/-- The same in the static build. -/
structure StaticBlank (a : CheckpointRecord) : Prop where
  cleared : a.isCleared = true
  fetch : ∀ k, a.fetch k = none
  num : a.numEntries = 0

variable {P} {a : CheckpointRecord} {b : CheckpointRec}

theorem RecSim.isCleared (h : RecSim a b) : a.isCleared = b.isCleared := by
  rcases h.sd with hs | ⟨ha, hb⟩
  · simp [CheckpointRecord.isCleared, CheckpointRec.isCleared, hs]
  · rw [ha, hb]

theorem RecSim.digest (h : RecSim a b) : a.digest = b.digest := by
  unfold CheckpointRecord.digest CheckpointRec.digest
  rw [h.isCleared]
  rcases h.sd with hs | ⟨-, hb⟩
  · rw [hs]
  · rw [if_pos hb, if_pos hb]

theorem RecSim.of_blank (ha : StaticBlank a) (hb : Blank b) : RecSim a b where
  sd := .inr ⟨ha.cleared, hb.cleared⟩
  fetch k := by rw [ha.fetch k, CheckpointRec.fetch, hb.parts]; rfl
  num := by rw [ha.num, CheckpointRec.numEntries, hb.parts]; rfl

theorem blank_new : Blank CheckpointRec.new := ⟨by decide, rfl⟩

theorem staticBlank_new : StaticBlank CheckpointRecord.new := ⟨by decide, fun _ => rfl, rfl⟩

theorem Blank.clear (h : Blank b) : Blank b.clear := by
  rw [CheckpointRec.clear, if_pos h.cleared]
  exact h

/-- What is cleared alike is blank afterwards, in both builds. -/
theorem RecSim.clear (h : RecSim a b) (hal : Alike a) : StaticBlank a.clear ∧ Blank b.clear := by
  by_cases h0 : a.numEntries = 0
  · have hc := hal.2 h0
    have hb : b.isCleared = true := h.isCleared ▸ hc
    have hparts : b.parts = [] := by
      have := h.num
      rw [h0, CheckpointRec.numEntries] at this
      exact List.length_eq_zero_iff.1 this.symm
    rw [CheckpointRecord.clear, if_pos h0, CheckpointRec.clear, if_pos hb]
    refine ⟨⟨hc, fun k => ?_, h0⟩, hb, hparts⟩
    rw [h.fetch k, CheckpointRec.fetch, hparts]
    rfl
  · have hc : ¬b.isCleared = true := by
      rw [← h.isCleared]
      exact fun hc => h0 (hal.1 hc)
    rw [CheckpointRecord.clear, if_neg h0, CheckpointRec.clear, if_neg hc]
    refine ⟨⟨by simp [CheckpointRecord.isCleared, Digest.isZero], fun k => ?_, rfl⟩, blank_new⟩
    simp [CheckpointRecord.fetch]

theorem RecSim.setDigest (h : RecSim a b) (d : Digest) :
    RecSim { a with sd := d } { b with sd := d } :=
  ⟨.inl rfl, h.fetch, h.num⟩

theorem free_iff (h : RecSim a b) (k : PartKey) :
    (a.parts k).lm = -1 ↔ (b.fetch k).isSome = false := by
  rw [← h.fetch k, CheckpointRecord.fetch]
  split <;> simp_all

theorem RecSim.store (h : RecSim a b) {k : PartKey} {p : Part} (hp : p.lm ≠ -1) :
    RecSim (a.store k p) { b with parts := (k, p) :: b.parts } := by
  refine ⟨h.sd, fun q => ?_, by simp [CheckpointRecord.store, CheckpointRec.numEntries, h.num]⟩
  by_cases hq : q = k
  · subst hq
    simp [CheckpointRecord.fetch, CheckpointRecord.store, CheckpointRec.fetch, hp]
  · have hb : (q == k) = false := by simpa using hq
    have := h.fetch q
    simp only [CheckpointRecord.fetch, CheckpointRec.fetch] at this ⊢
    simp only [CheckpointRecord.store, Function.update_of_ne hq, List.lookup_cons, hb]
    exact this

/-- `append` succeeds in one build if it does in the other. -/
theorem RecSim.append (h : RecSim a b) {k : PartKey} {p : Part} (hp : p.lm ≠ -1) :
    (a.append k p = none ∧ b.append k p = none) ∨
    ∃ a' b', a.append k p = some a' ∧ b.append k p = some b' ∧ RecSim a' b' := by
  unfold CheckpointRecord.append CheckpointRec.append
  by_cases hf : (a.parts k).lm = -1
  · have := (free_iff h k).1 hf
    exact .inr ⟨_, _, if_pos hf, by simp [this], h.store hp⟩
  · have : (b.fetch k).isSome = true := by
      by_contra hne
      exact hf ((free_iff h k).2 (by simpa using hne))
    exact .inl ⟨if_neg hf, by simp [this]⟩

theorem RecSim.appendr (h : RecSim a b) {k : PartKey} {p : Part} (hp : p.lm ≠ -1) :
    ∃ a' b', a.appendr k p = some a' ∧ b.appendr k p = some b' ∧ RecSim a' b' := by
  unfold CheckpointRecord.appendr CheckpointRec.appendr CheckpointRec.append
  by_cases hf : (a.parts k).lm = -1
  · have := (free_iff h k).1 hf
    exact ⟨_, _, if_pos hf, by simp [this], h.store hp⟩
  · have : (b.fetch k).isSome = true := by
      by_contra hne
      exact hf ((free_iff h k).2 (by simpa using hne))
    exact ⟨_, _, if_neg hf, by simp [this], h⟩

/-! ## The records of the window -/

section Index

variable {l : CheckpointRecordLog} {n m : Int}

theorem exists_mult (hh : l.head % P.ckptInterval = 0) (hn : n % P.ckptInterval = 0)
    (hle : l.head ≤ n) :
    ∃ a : Nat, n = l.head + a * P.ckptInterval := by
  obtain ⟨c, hc⟩ := Int.dvd_sub (Int.dvd_of_emod_eq_zero hn) (Int.dvd_of_emod_eq_zero hh)
  have hK : (0 : Int) < P.ckptInterval := by exact_mod_cast P.ckptInterval_pos
  have h0 : 0 ≤ c := by
    by_contra hneg
    have := mul_neg_of_pos_of_neg hK (lt_of_not_ge hneg)
    omega
  refine ⟨c.toNat, ?_⟩
  rw [Int.toNat_of_nonneg h0, mul_comm, ← hc]
  ring

theorem emod_mult (hh : l.head % P.ckptInterval = 0) (a : Nat) :
    (l.head + a * P.ckptInterval) % P.ckptInterval = 0 := by
  rw [Int.add_mul_emod_self_right]
  exact hh

theorem recordIndex_mult (hh : l.head % P.ckptInterval = 0) (a : Nat) :
    l.recordIndex P (l.head + a * P.ckptInterval) = (l.headIndex + a) %
      CheckpointRecordLog.slots P := by
  have hK : (P.ckptInterval : Int) ≠ 0 := by exact_mod_cast P.ckptInterval_pos.ne'
  unfold CheckpointRecordLog.recordIndex
  rw [if_neg (not_not.2 (emod_mult hh a)), add_sub_cancel_left,
    Int.mul_ediv_cancel _ hK, Int.toNat_natCast]

theorem withinRange_mult (a : Nat) :
    l.withinRange P (l.head + a * P.ckptInterval) = true ↔ a < CheckpointRecordLog.slots P := by
  unfold CheckpointRecordLog.withinRange CheckpointRecordLog.slots
  rw [Nat.lt_succ_iff, Nat.le_div_iff_mul_le P.ckptInterval_pos]
  simp only [Bool.and_eq_true, decide_eq_true_eq]
  constructor
  · rintro ⟨-, h⟩
    have : (a : Int) * P.ckptInterval ≤ P.maxOut := by omega
    exact_mod_cast this
  · intro h
    have h1 : (a : Int) * P.ckptInterval ≤ P.maxOut := by exact_mod_cast h
    have h2 : (0 : Int) ≤ a * P.ckptInterval := by positivity
    omega

theorem withinRange_iff : l.withinRange P n = true ↔ l.head ≤ n ∧ n ≤ l.head + P.maxOut := by
  simp only [CheckpointRecordLog.withinRange, Bool.and_eq_true, decide_eq_true_eq]

theorem add_mod_inj {x a b k : Nat} (ha : a < k) (hb : b < k)
    (h : (x + a) % k = (x + b) % k) : a = b :=
  Nat.ModEq.eq_of_lt_of_lt (Nat.ModEq.add_left_cancel' x h) ha hb

/-- Two checkpoints of the window have different records. -/
theorem recordIndex_inj (hh : l.head % P.ckptInterval = 0) (hn : n % P.ckptInterval = 0)
    (hm : m % P.ckptInterval = 0) (hnw : l.withinRange P n = true) (hmw : l.withinRange P m = true)
    (h : l.recordIndex P n = l.recordIndex P m) :
    n = m := by
  obtain ⟨a, rfl⟩ := exists_mult hh hn (withinRange_iff.1 hnw).1
  obtain ⟨b, rfl⟩ := exists_mult hh hm (withinRange_iff.1 hmw).1
  rw [recordIndex_mult hh, recordIndex_mult hh] at h
  rw [add_mod_inj ((withinRange_mult a).1 hnw) ((withinRange_mult b).1 hmw) h]

/-- Every record but the last is that of a checkpoint of the window. -/
theorem exists_record (hh : l.head % P.ckptInterval = 0) {k : Nat}
    (hk : k < CheckpointRecordLog.slots P) :
    ∃ a : Nat, a < CheckpointRecordLog.slots P ∧
      l.recordIndex P (l.head + a * P.ckptInterval) = k := by
  set m := CheckpointRecordLog.slots P with hm
  have hi : l.headIndex % m < m := Nat.mod_lt _ (by omega)
  refine ⟨(k + m - l.headIndex % m) % m, Nat.mod_lt _ (by omega), ?_⟩
  rw [recordIndex_mult hh, ← hm, Nat.add_mod, Nat.mod_mod]
  have hsum : l.headIndex % m + (k + m - l.headIndex % m) = k + m := by omega
  rw [Nat.add_mod_mod, hsum, Nat.add_mod_right, Nat.mod_eq_of_lt hk]

/-- The records that the loop of `truncate` clears are those of the checkpoints below the new
head. -/
theorem clearBelow_mult (hh : l.head % P.ckptInterval = 0) (c k : Nat) :
    l.clearBelow P (l.head + c * P.ckptInterval) k =
      if ∃ j < c, (l.headIndex + j) % CheckpointRecordLog.slots P = k then
  (l.records k).clear else l.records k := by
  have hK := P.ckptInterval_pos
  have hcount :
    ((l.head + c * P.ckptInterval - l.head + P.ckptInterval - 1) / P.ckptInterval).toNat = c := by
    have h1 : l.head + c * P.ckptInterval - l.head + P.ckptInterval -
      1 = (P.ckptInterval - 1 : Int) + c * P.ckptInterval := by
      ring
    rw [h1, Int.add_mul_ediv_right _ _ (by omega), Int.ediv_eq_zero_of_lt (by omega) (by omega)]
    omega
  unfold CheckpointRecordLog.clearBelow
  rw [hcount]
  congr 1
  simp only [List.any_eq_true, List.mem_range, recordIndex_mult hh, beq_iff_eq]

theorem fetch_mult (hn : n % P.ckptInterval = 0) (hw : l.withinRange P n = true) :
    l.fetch P n = some (l.records (l.recordIndex P n)) := by
  simp [CheckpointRecordLog.fetch, hn, hw]

/-- `truncate` inside the window: a checkpoint that stays keeps its record, one that enters the
window gets a record that was cleared. -/
theorem truncate_record (hh : l.head % P.ckptInterval = 0) {h : Int} {c : Nat}
    (hc : h = l.head + c * P.ckptInterval) (hcs : c < CheckpointRecordLog.slots P)
    {records : Nat → CheckpointRecord}
    (hrec : ∀ k < CheckpointRecordLog.slots P, records k = l.clearBelow P h k)
    {l' : CheckpointRecordLog}
    (hl' : l' = { l with head := h, headIndex := l.recordIndex P h, records := records })
    (hn : n % P.ckptInterval = 0) (hw : l'.withinRange P n = true) :
    (l.withinRange P n = true ∧ l'.records (l'.recordIndex P n) = l.records (l.recordIndex P n)) ∨
    (l.withinRange P n = false ∧ ∃ m : Int, m % P.ckptInterval = 0 ∧
        l.withinRange P m = true ∧ m < h ∧
      l'.records (l'.recordIndex P n) = (l.records (l.recordIndex P m)).clear) := by
  set m := CheckpointRecordLog.slots P with hm
  have hK := P.ckptInterval_pos
  have hhead : l'.head = h := by rw [hl']
  have hh' : l'.head % P.ckptInterval = 0 := by
    rw [hhead, hc]
    exact emod_mult hh c
  have hle : l'.head ≤ n := (withinRange_iff.1 hw).1
  obtain ⟨a, rfl⟩ := exists_mult hh' hn hle
  have ha : a < m := (withinRange_mult a).1 hw
  have hidx : l'.recordIndex P (l'.head + a * P.ckptInterval) = (l.headIndex + (c + a)) % m := by
    rw [recordIndex_mult hh', show l'.headIndex = l.recordIndex P h by rw [hl'],
      hc, recordIndex_mult hh c, Nat.mod_add_mod,
      Nat.add_assoc]
  have hna : l'.head + a * P.ckptInterval = l.head + (c + a : Nat) * P.ckptInterval := by
    rw [hhead, hc]
    push_cast
    ring
  have hrecords : l'.records (l'.recordIndex P (l'.head + a * P.ckptInterval)) =
      if ∃ j < c, (l.headIndex + j) % m = (l.headIndex + (c + a)) % m then
        (l.records ((l.headIndex + (c + a)) % m)).clear
          else l.records ((l.headIndex + (c + a)) % m) := by
    rw [hidx, show l'.records = records by rw [hl'], hrec _ (Nat.mod_lt _ (Nat.succ_pos _)),
      hc, clearBelow_mult hh, ← hm]
  by_cases hstay : c + a < m
  · refine .inl ⟨hna ▸ (withinRange_mult _).2 hstay, ?_⟩
    rw [hrecords, if_neg, hna, recordIndex_mult hh, ← hm]
    rintro ⟨j, hj, he⟩
    have := add_mod_inj (by omega) hstay he
    omega
  · have hj : c + a - m < c := by omega
    have hmod : (l.headIndex + (c + a)) % m = (l.headIndex + (c + a - m)) % m := by
      rw [show l.headIndex + (c + a) = l.headIndex + (c + a - m) + m by omega, Nat.add_mod_right]
    refine .inr ⟨?_, l.head + (c + a - m : Nat) * P.ckptInterval,
      emod_mult hh _, (withinRange_mult _).2 (by omega), ?_, ?_⟩
    · rw [hna]
      by_contra hne
      exact hstay ((withinRange_mult _).1 (by simpa using hne))
    · rw [hc]
      have : ((c + a - m : Nat) : Int) * P.ckptInterval < c * P.ckptInterval :=
        mul_lt_mul_of_pos_right (by exact_mod_cast hj) (by exact_mod_cast hK)
      omega
    · rw [hrecords, if_pos ⟨c + a - m, hj, hmod.symm⟩, hmod, recordIndex_mult hh, ← hm]

end Index

/-! ## The simulation -/

/-- **The static log answers like the heap one.** In the window the records of the checkpoints
correspond; every other element of the heap log is not in use. -/
structure Sim (P : Params) (s : CheckpointRecordLog × Log CheckpointRec) : Prop where
  heads : s.2.head = s.1.head
  aligned : s.1.head % P.ckptInterval = 0
  recs : ∀ n : Int, n % P.ckptInterval = 0 → s.1.withinRange P n = true →
    RecSim (s.1.records (s.1.recordIndex P n)) (s.2.entry (logSize P) n)
  rest : ∀ n : Int, s.1.head ≤ n → n < s.1.head + logSize P →
    ¬(n % P.ckptInterval = 0 ∧ s.1.withinRange P n = true) →
    Blank (s.2.entry (logSize P) n)

section Simulation

variable {s s' : CheckpointRecordLog × Log CheckpointRec} {n : Int}

theorem sim_start : Sim P start where
  heads := rfl
  aligned := Int.zero_emod _
  recs _ _ _ := .of_blank staticBlank_new blank_new
  rest _ _ _ _ := blank_new

theorem withinRange_heap (hs : Sim P s) (hw : s.1.withinRange P n = true) :
    s.2.withinRange (logSize P) n = true := by
  have := P.maxOut_pos
  rw [withinRange_iff] at hw
  simp only [Log.withinRange, Bool.and_eq_true, decide_eq_true_eq]
  rw [hs.heads, logSize]
  push_cast
  omega

theorem fetch_heap (hs : Sim P s) (hw : s.1.withinRange P n = true) :
    s.2.fetch (logSize P) n = some (s.2.entry (logSize P) n) := by
  simp [Log.fetch, withinRange_heap hs hw]

/-- A write through the references of one checkpoint keeps the simulation. -/
theorem Sim.set (hs : Sim P s) (hn : n % P.ckptInterval = 0) (hw : s.1.withinRange P n = true)
    {a : CheckpointRecord} {b : CheckpointRec} (hab : RecSim a b) :
    Sim P (s.1.set P n a, s.2.set (logSize P) n b) where
  heads := hs.heads
  aligned := hs.aligned
  recs m hm hmw := by
    change RecSim (Function.update s.1.records (s.1.recordIndex P n) a (s.1.recordIndex P m)) _
    by_cases hmn : m = n
    · subst hmn
      rw [Function.update_self, Log.entry_set_self]
      exact hab
    · have hidx : s.1.recordIndex P m ≠ s.1.recordIndex P n :=
        fun h => hmn (recordIndex_inj hs.aligned hm hn hmw hw h)
      rw [Function.update_of_ne hidx,
        Log.entry_set_of_ne b (withinRange_heap hs hw) (withinRange_heap hs hmw) hmn]
      exact hs.recs m hm hmw
  rest m h1 h2 hnot := by
    have hmn : m ≠ n := by
      rintro rfl
      exact hnot ⟨hn, hw⟩
    have hmw : s.2.withinRange (logSize P) m = true := by
      simp only [Log.withinRange, Bool.and_eq_true, decide_eq_true_eq]
      rw [hs.heads]
      exact ⟨h1, h2⟩
    rw [Log.entry_set_of_ne b (withinRange_heap hs hw) hmw hmn]
    exact hs.rest m h1 h2 hnot

/-- What an operation on the record of one checkpoint does in the two logs. -/
theorem update_sim (hs : Sim P s) (hn : n % P.ckptInterval = 0) (hw : s.1.withinRange P n = true)
    {f : CheckpointRecord → Option CheckpointRecord} {g : CheckpointRec → Option CheckpointRec}
    (hfg : ∀ a b, RecSim a b → a = s.1.records (s.1.recordIndex P n) →
      (f a = none ∧ g b = none) ∨ ∃ a' b', f a = some a' ∧ g b = some b' ∧ RecSim a' b') :
    (staticUpdate P s.1 n f = none ∧ heapUpdate P s.2 n g = none) ∨
    ∃ t, staticUpdate P s.1 n f = some t.1 ∧ heapUpdate P s.2 n g = some t.2 ∧ Sim P t := by
  simp only [staticUpdate, heapUpdate, fetch_mult hn hw,
    fetch_heap hs hw, Option.bind_eq_bind, Option.bind_some]
  rcases hfg _ _ (hs.recs n hn hw) rfl with ⟨hf, hg⟩ | ⟨a', b', hf, hg, hab⟩
  · exact .inl ⟨by rw [hf]; rfl, by rw [hg]; rfl⟩
  · exact .inr ⟨_, by rw [hf]; rfl, by rw [hg]; rfl, hs.set hn hw hab⟩

/-- Every checkpoint of the window before `h` has a record that is cleared alike. -/
def AlikeBelow (P : Params) (l : CheckpointRecordLog) (h : Int) : Prop :=
  ∀ n : Int, n % P.ckptInterval = 0 → l.withinRange P n = true →
    n < h → Alike (l.records (l.recordIndex P n))

/-- An element of the heap log's window is blank once it is cleared. -/
theorem clear_entry_blank (hs : Sim P s) {h : Int} (hal : AlikeBelow P s.1 h) (h1 : s.1.head ≤ n)
    (h2 : n < s.1.head + logSize P) (h3 : n < h) : Blank (s.2.entry (logSize P) n).clear := by
  by_cases hin : n % P.ckptInterval = 0 ∧ s.1.withinRange P n = true
  · exact ((hs.recs n hin.1 hin.2).clear (hal n hin.1 hin.2 h3)).2
  · exact (hs.rest n h1 h2 hin).clear

theorem clear_record_blank (hs : Sim P s) {h : Int} (hal : AlikeBelow P s.1 h)
    (hn : n % P.ckptInterval = 0) (hw : s.1.withinRange P n = true) (h3 : n < h) :
    StaticBlank (s.1.records (s.1.recordIndex P n)).clear :=
  ((hs.recs n hn hw).clear (hal n hn hw h3)).1

/-- Clearing every record, as `clear` of the log does, leaves only blank ones. -/
theorem clear_all_blank (hs : Sim P s) {h : Int} (hal : AlikeBelow P s.1 h) (j : Nat)
    (hfar : s.1.head + P.maxOut < h) :
    StaticBlank (s.1.records (j % CheckpointRecordLog.slots P)).clear := by
  obtain ⟨a, ha, hk⟩ :=
    exists_record (l := s.1) hs.aligned (Nat.mod_lt j (Nat.succ_pos (P.maxOut / P.ckptInterval)))
  have hw := (withinRange_mult (l := s.1) a).2 ha
  rw [← hk]
  refine clear_record_blank hs hal (emod_mult hs.aligned a) hw ?_
  rw [withinRange_iff] at hw
  omega

section Truncate

variable {h : Int} (hpow : ∃ k, P.maxOut = 2 ^ k)

theorem logSize_pos : 0 < logSize P := by
  have := P.maxOut_pos
  unfold logSize
  omega

theorem logSize_lt : logSize P < 2 ^ 31 := by
  have := P.maxOut_lt
  unfold logSize
  omega

include hpow in
theorem logSize_dvd : logSize P ∣ 2 ^ 32 := by
  obtain ⟨k, hk⟩ := hpow
  have hlt : 2 ^ k < 2 ^ 15 := hk ▸ P.maxOut_lt
  have : k < 15 := (Nat.pow_lt_pow_iff_right (by decide)).1 hlt
  rw [logSize, hk, ← pow_succ]
  exact pow_dvd_pow 2 (by omega)

include hpow in
/-- After `truncate` the elements of the heap log that were not records of a checkpoint before are
blank. -/
theorem truncate_rest (hs : Sim P s) (hal : AlikeBelow P s.1 h) (hwrap : s.2.NoWrap (logSize P) h)
    (hlt : s.1.head < h) (h1 : h ≤ n) (h2 : n < h + logSize P)
    (hnot : ¬(n % P.ckptInterval = 0 ∧ s.1.withinRange P n = true)) :
    Blank ((s.2.truncate (logSize P) CheckpointRec.clear h).entry (logSize P) n) := by
  by_cases hold : n < s.1.head + logSize P
  · rw [Log.entry_truncate (logSize_dvd hpow) logSize_lt h1 (by rw [hs.heads]; exact hold)]
    exact hs.rest n (by omega) hold hnot
  · obtain ⟨m, hm1, hm2, hm3, he⟩ : ∃ m, s.2.head ≤ m ∧ m < s.2.head + logSize P ∧ m < h ∧
        (s.2.truncate (logSize P) CheckpointRec.clear h).entry (logSize P) n =
          (s.2.entry (logSize P) m).clear :=
      Log.entry_truncate_new (logSize_dvd hpow) logSize_lt
        logSize_pos hwrap (by rw [hs.heads]; exact hlt)
        (by rw [hs.heads]; omega) h2
    rw [hs.heads] at hm1 hm2
    rw [he]
    exact clear_entry_blank hs hal hm1 hm2 hm3

include hpow in
/-- `truncate` past the window clears every record. -/
theorem truncate_far (hs : Sim P s) (hal : AlikeBelow P s.1 h) (hwrap : s.2.NoWrap (logSize P) h)
    (hh : h % P.ckptInterval = 0) (hfar : s.1.head + P.maxOut < h) :
    Sim P (s.1.clear h, s.2.truncate (logSize P) CheckpointRec.clear h) := by
  have hlt : s.1.head < h := by omega
  have hold : ∀ n : Int, h ≤ n → ¬(n % P.ckptInterval = 0 ∧ s.1.withinRange P n = true) := by
    rintro n hn ⟨-, hw⟩
    rw [withinRange_iff] at hw
    omega
  have hrest : ∀ n : Int, h ≤ n → n < h + logSize P →
      Blank ((s.2.truncate (logSize P) CheckpointRec.clear h).entry (logSize P) n) := fun n h1 h2 =>
    truncate_rest hpow hs hal hwrap hlt h1 h2 (hold n h1)
  refine ⟨?_, hh, fun n hn hw => ?_, fun n h1 h2 _ => hrest n h1 h2⟩
  · rw [Log.truncate_head, hs.heads]
    exact max_eq_right hlt.le
  · have hle : h ≤ n ∧ n ≤ h + P.maxOut := withinRange_iff.1 hw
    refine .of_blank ?_ (hrest n hle.1 (by have := P.maxOut_pos; unfold logSize; push_cast; omega))
    obtain ⟨b, rfl⟩ := exists_mult (l := s.1.clear h) hh hn hle.1
    rw [recordIndex_mult (l := s.1.clear h) hh]
    exact clear_all_blank hs hal _ hfar

include hpow in
/-- `truncate` inside the window: the records that it keeps stay those of their checkpoints, and the
ones that it clears are used for the checkpoints that enter the window. -/
theorem truncate_near (hs : Sim P s) (hal : AlikeBelow P s.1 h) (hwrap : s.2.NoWrap (logSize P) h)
    {c : Nat} (hc : h = s.1.head + c * P.ckptInterval) (hc0 : s.1.head < h)
    (hcs : c < CheckpointRecordLog.slots P) {records : Nat → CheckpointRecord}
    (hrec : ∀ k < CheckpointRecordLog.slots P, records k = s.1.clearBelow P h k) :
    Sim P ({ s.1 with head := h, headIndex := s.1.recordIndex P h, records := records },
      s.2.truncate (logSize P) CheckpointRec.clear h) := by
  refine ⟨?_, ?_, fun n hn hw => ?_, fun n h1 h2 hnot => ?_⟩
  · rw [Log.truncate_head, hs.heads]
    exact max_eq_right hc0.le
  · change h % P.ckptInterval = 0
    rw [hc]
    exact emod_mult hs.aligned c
  · have hle : h ≤ n ∧ n ≤ h + P.maxOut := withinRange_iff.1 hw
    rcases truncate_record hs.aligned hc hcs hrec rfl hn hw with ⟨hwold,
      he⟩ | ⟨hwold, m, hm, hmw, hmlt, he⟩
    · have := withinRange_heap hs hwold
      simp only [Log.withinRange, Bool.and_eq_true, decide_eq_true_eq] at this
      have hent : (s.2.truncate (logSize P) CheckpointRec.clear h).entry (logSize P) n =
        s.2.entry (logSize P) n :=
        Log.entry_truncate (logSize_dvd hpow) logSize_lt hle.1 this.2
      have hsim := hs.recs n hn hwold
      rw [← he, ← hent] at hsim
      exact hsim
    · have hblank := clear_record_blank hs hal hm hmw hmlt
      rw [← he] at hblank
      refine .of_blank hblank (truncate_rest hpow hs hal hwrap hc0 hle.1 ?_ ?_)
      · have := P.maxOut_pos
        unfold logSize
        push_cast
        omega
      · rintro ⟨-, hw⟩
        rw [hwold] at hw
        cases hw
  · refine truncate_rest hpow hs hal hwrap hc0 h1 h2 ?_
    rintro ⟨hn, hwold⟩
    refine hnot ⟨hn, ?_⟩
    rw [withinRange_iff] at hwold ⊢
    change h ≤ n ∧ n ≤ h + P.maxOut
    change h ≤ n at h1
    omega

include hpow in
theorem truncate_sim (hs : Sim P s) (hv : Valid P s (.truncate h))
    (hc : ActsAlike P s (.truncate h)) :
    ∃ t, staticStep P s.1 (.truncate h) = some t.1 ∧
      heapStep P s.2 (.truncate h) = some t.2 ∧ Sim P t := by
  have hh : h % P.ckptInterval = 0 := hv
  simp only [staticStep, heapStep, CheckpointRecordLog.truncate, if_neg (not_not.2 hh)]
  by_cases hle : h ≤ s.1.head
  · refine ⟨s, by rw [if_pos hle], ?_, hs⟩
    rw [Log.truncate, hs.heads, if_pos hle]
  · have hlt : s.1.head < h := by omega
    obtain ⟨hal, hwrap⟩ := hc hlt
    rw [if_neg hle]
    by_cases hw : s.1.withinRange P h = true
    · obtain ⟨c, hcc⟩ := exists_mult hs.aligned hh hlt.le
      have hcs : c < CheckpointRecordLog.slots P := (withinRange_mult c).1 (hcc ▸ hw)
      refine ⟨(_, _), by simp only [hw]; rfl, rfl, truncate_near hpow hs hal hwrap hcc hlt hcs ?_⟩
      intro k hk
      split
      · rw [Function.update_of_ne hk.ne]
      · rfl
    · have hw' : s.1.withinRange P h = false := by simpa using hw
      have hfar : s.1.head + P.maxOut < h := by
        rw [withinRange_iff] at hw
        omega
      exact ⟨(_, _), by simp [hw'], rfl, truncate_far hpow hs hal hwrap hh hfar⟩

end Truncate

theorem clearLog_sim {h : Int} (hs : Sim P s) (hh : h % P.ckptInterval = 0)
    (hc : ActsAlike P s (.clearLog h)) :
    Sim P (s.1.clear h, ⟨h, fun k => (s.2.elems k).clear⟩) := by
  have hal : ∀ b, AlikeBelow P s.1 b := fun _ n hn hw _ => hc n hn hw
  have hblank : ∀ n, Blank (Log.entry (logSize P) ⟨h, fun k => (s.2.elems k).clear⟩ n) := by
    intro n
    obtain ⟨m, h1, h2, hslot⟩ := Log.exists_slot (l := s.2) logSize_pos n
    rw [hs.heads] at h1 h2
    change Blank (s.2.elems (Log.slot (logSize P) n)).clear
    rw [← hslot]
    exact clear_entry_blank hs (hal (m + 1)) h1 h2 (by omega)
  refine ⟨rfl, hh, fun n hn hw => .of_blank ?_ (hblank n), fun n _ _ _ => hblank n⟩
  obtain ⟨k, hk⟩ := exists_mult (l := s.1.clear h) hh hn (withinRange_iff.1 hw).1
  rw [hk, recordIndex_mult (l := s.1.clear h) hh]
  exact clear_all_blank hs (hal _) _ (lt_add_one _)

/-- What an operation does in the two logs: both stop, or both go on and still answer alike. -/
theorem op_sim (hpow : ∃ k, P.maxOut = 2 ^ k) (hs : Sim P s) {op : RecordOp} (hv : Valid P s op)
    (hc : ActsAlike P s op) :
    (staticStep P s.1 op = none ∧ heapStep P s.2 op = none) ∨
    ∃ t, staticStep P s.1 op = some t.1 ∧ heapStep P s.2 op = some t.2 ∧ Sim P t := by
  cases op with
  | setDigest n d =>
    exact update_sim hs hv.1 hv.2 fun a b hab _ => .inr ⟨_, _, rfl, rfl, hab.setDigest d⟩
  | append n k p => exact update_sim hs hv.1 hv.2 fun a b hab _ => hab.append hc
  | appendr n k p => exact update_sim hs hv.1 hv.2 fun a b hab _ => .inr (hab.appendr hc)
  | clear n =>
    refine update_sim hs hv.1 hv.2 fun a b hab ha => .inr ⟨_, _, rfl, rfl, ?_⟩
    subst ha
    obtain ⟨h1, h2⟩ := hab.clear hc
    exact .of_blank h1 h2
  | truncate h => exact .inr (truncate_sim hpow hs hv hc)
  | clearLog h => exact .inr ⟨(_, _), rfl, rfl, clearLog_sim hs hv hc⟩

theorem step_sim (hpow : ∃ k, P.maxOut = 2 ^ k) (hs : Sim P s) {op : RecordOp}
    (hok : Valid P s op ∧ ActsAlike P s op) (hst : step P s op = some s') : Sim P s' := by
  rcases op_sim hpow hs hok.1 hok.2 with ⟨h1, -⟩ | ⟨t, h1, h2, ht⟩
  · simp [step, h1] at hst
  · simp only [step, h1, h2, Option.bind_eq_bind, Option.bind_some, Option.some.injEq] at hst
    exact hst ▸ ht

/-- The records of one checkpoint give the same answers to what `State` asks them. -/
structure SameAnswers (P : Params) (s : CheckpointRecordLog × Log CheckpointRec) (n : Int)
    (a : CheckpointRecord) (b : CheckpointRec) : Prop where
  static : s.1.fetch P n = some a
  heap : s.2.fetch (logSize P) n = some b
  digest : a.digest = b.digest
  isCleared : a.isCleared = b.isCleared
  fetch : ∀ k, a.fetch k = b.fetch k
  numEntries : a.numEntries = b.numEntries

theorem Sim.answers (hs : Sim P s) (hn : n % P.ckptInterval = 0) (hw : s.1.withinRange P n = true) :
    SameAnswers P s n (s.1.records (s.1.recordIndex P n)) (s.2.entry (logSize P) n) where
  static := fetch_mult hn hw
  heap := fetch_heap hs hw
  digest := (hs.recs n hn hw).digest
  isCleared := (hs.recs n hn hw).isCleared
  fetch := (hs.recs n hn hw).fetch
  numEntries := (hs.recs n hn hw).num

/-- The checkpoints that enter the window have blank records. -/
theorem truncate_entering (hpow : ∃ k, P.maxOut = 2 ^ k) (hs : Sim P s) {h : Int}
    (hok : Valid P s (.truncate h) ∧ ActsAlike P s (.truncate h))
    (hst : step P s (.truncate h) = some s') (hold : s.1.withinRange P n = false)
    (hw : s'.1.withinRange P n = true) :
    Blank (s'.2.entry (logSize P) n) := by
  have hheap : s'.2 = s.2.truncate (logSize P) CheckpointRec.clear h := by
    simp only [step, heapStep, Option.bind_eq_bind, Option.bind_eq_some_iff,
      Option.some.injEq] at hst
    obtain ⟨_, _, _, rfl, rfl⟩ := hst
    rfl
  have hhead : s'.1.head = max s.1.head h := by
    rw [← (step_sim hpow hs hok hst).heads, hheap, Log.truncate_head, hs.heads]
  have hlt : s.1.head < h := by
    by_contra hle
    rw [max_eq_left (by omega)] at hhead
    rw [withinRange_iff, hhead, ← withinRange_iff, hold] at hw
    cases hw
  rw [max_eq_right hlt.le] at hhead
  rw [withinRange_iff, hhead] at hw
  rw [hheap]
  refine truncate_rest hpow hs (hok.2 hlt).1 (hok.2 hlt).2 hlt hw.1 ?_ fun hin => by
    rw [hold] at hin
    cases hin.2
  have := P.maxOut_pos
  unfold logSize
  push_cast
  omega

end Simulation

/-- **The static checkpoint log refines the heap one**, in every run whose steps clear only records
that are cleared alike. For every checkpoint in range the two give the same answers; an operation
stops in both builds or in none; and a checkpoint that enters the window has a zero digest and no
entries. -/
theorem recordLog_refines (hpow : ∃ k, P.maxOut = 2 ^ k) {ops : List RecordOp}
    {s : CheckpointRecordLog × Log CheckpointRec}
    (hm : Run.Meets (step P) (fun s op => Valid P s op ∧ ActsAlike P s op) start ops)
    (hr : Run.run (step P) start ops = some s) :
    (∀ n : Int, n % P.ckptInterval = 0 → s.1.withinRange P n = true → ∃ a b,
        SameAnswers P s n a b) ∧
    (∀ op, Valid P s op → ActsAlike P s op →
        ((staticStep P s.1 op).isSome ↔ (heapStep P s.2 op).isSome)) ∧
    (∀ h s', Valid P s (.truncate h) → ActsAlike P s (.truncate h) →
        step P s (.truncate h) = some s' →
      ∀ n : Int, n % P.ckptInterval = 0 → s.1.withinRange P n = false →
        s'.1.withinRange P n = true →
        ∃ a b, SameAnswers P s' n a b ∧ a.digest = none ∧
          (∀ k, a.fetch k = none) ∧ a.numEntries = 0) := by
  have hs : Sim P s :=
    Run.invariant (fun _ _ _ hs hok hst => step_sim hpow hs hok hst) sim_start hm hr
  refine ⟨fun n hn hw => ⟨_, _, hs.answers hn hw⟩,
    fun op hv hc => ?_, fun h s' hv hc hst n hn hold hw => ?_⟩
  · rcases op_sim hpow hs hv hc with ⟨h1, h2⟩ | ⟨t, h1, h2, -⟩
    · rw [h1, h2]
      simp
    · rw [h1, h2]
      simp
  · have hans := (step_sim hpow hs ⟨hv, hc⟩ hst).answers hn hw
    have hb := truncate_entering hpow hs ⟨hv, hc⟩ hst hold hw
    refine ⟨_, _, hans, ?_, fun k => ?_, ?_⟩
    · rw [hans.digest, CheckpointRec.digest, if_pos hb.cleared]
    · rw [hans.fetch k, CheckpointRec.fetch, hb.parts]
      rfl
    · rw [hans.numEntries, CheckpointRec.numEntries, hb.parts]
      rfl

/-- A run in which a block is modified after the checkpoint of 0, which is discarded at 128. -/
def discardRun : List RecordOp :=
  [.setDigest 0 5, .append 0 (1, 0) default, .setDigest 128 6, .truncate 128]

theorem recordLog_refines_discard :
    ∃ s, Run.run (step Params.default) start discardRun = some s ∧
      ∀ n : Int, n % 128 = 0 → s.1.withinRange Params.default n = true → ∃ a b,
        SameAnswers Params.default s n a b := by
  suffices hm : Run.Meets (step Params.default) (fun s op =>
    Valid Params.default s op ∧ ActsAlike Params.default s op)
      start discardRun from ⟨_, rfl, (recordLog_refines ⟨8, rfl⟩ hm rfl).1⟩
  refine ⟨⟨by decide, trivial⟩, ?_⟩
  rintro _ ⟨⟩
  refine ⟨⟨by decide, show (0 : Int) ≠ -1 by decide⟩, ?_⟩
  rintro _ ⟨⟩
  refine ⟨⟨by decide, trivial⟩, ?_⟩
  rintro _ ⟨⟩
  refine ⟨⟨by decide, fun _ => ⟨fun n hn hw hlt => ?_, fun _ => by decide⟩⟩, fun _ _ => trivial⟩
  rw [withinRange_iff] at hw
  have hn0 : n = 0 := by
    have hn : n % 128 = 0 := hn
    have h1 : 0 ≤ n := hw.1
    omega
  subst hn0
  unfold Alike
  decide

/-- A partition that `enforce_bound` has marked. -/
def markedPart : Part := ⟨-1, 3, default⟩

/-- Nothing is modified after the checkpoint of 0, and its digest is then that of the checkpoint
384, which enters the window and uses the record. A marked partition, besides, is not there in the
static build. -/
theorem recordLog_keeps_stale_digest :
    (Run.Meets (step Params.default) (Valid Params.default) start [.setDigest 0 5, .truncate 128] ∧
    ∃ s, Run.run (step Params.default) start [.setDigest 0 5, .truncate 128] = some s ∧
      s.1.withinRange Params.default 384 = true ∧
      (s.1.fetch Params.default 384).map CheckpointRecord.digest = some (some 5) ∧
      (s.2.fetch (logSize Params.default) 384).map CheckpointRec.digest = some none) ∧
    Run.Meets (step Params.default) (Valid Params.default) start [.append 0 (1, 0) markedPart] ∧
    ∃ s, Run.run (step Params.default) start [.append 0 (1, 0) markedPart] = some s ∧
      (s.1.fetch Params.default 0).map (·.fetch (1, 0)) = some none ∧
      (s.2.fetch (logSize Params.default) 0).map (·.fetch (1, 0)) = some (some markedPart) := by
  constructor
  · refine ⟨⟨by decide, ?_⟩, _, rfl, by decide, by decide +kernel, by decide +kernel⟩
    rintro _ ⟨⟩
    exact ⟨by decide, fun _ _ => trivial⟩
  · exact ⟨⟨by decide, fun _ _ => trivial⟩, _, rfl, by decide +kernel, by decide +kernel⟩

end RecordOp

end TinyBFT
