import TinyBFT.Basic
import TinyBFT.Lib.Run
import TinyBFT.Lib.Reads
import Mathlib.Data.Int.ModEq
import Mathlib.Tactic.Ring

/-!
# The static agreement region: `agreement_region.cc`

With `STATIC_LOG_ALLOCATOR` the pre-prepare, prepare and commit messages kept in the logs live in a
static array of `max_out` slices, one for each sequence number of the window. The slice of `n` is
computed from a pair `(head, head_index)`, and `truncate` moves the window.

| here | there |
| --- | --- |
| `Slot`          | a block of a slice (`agreement_region.cc:37-62`) |
| `Region`        | `slices`, `head`, `head_index` (`:64-66`) |
| `addr`          | where `msg_` of a block lies, in bytes from the start of `slices` |
| `certIndex`     | `cert_index` (`:74-76`) |
| `withinRange`   | `within_range` (`:131-133`) |
| `load`          | `load_pre_prepare`, `load_prepare`, `load_commit` (`:85`, `:101`, `:116`): the block they point to |
| `storePrePrepare`, `storePrepare`, `storeCommit` | `:90`, `:107`, `:122` |
| `newPrePrepare` | `new_pre_prepare` (`:78-83`), which builds the message in place |
| `truncate`      | `:135-148` |

`truncate` inside the window sets `head_index` to `new_head % max_out`. That keeps every retained
message in its slice only if `head_index` was `head % max_out` before (`truncate_certIndex_iff`). It
is not so at the start (`head = 1`, `head_index = 0`) nor after a truncation past the window, which
sets `head_index` to `0`: the first truncation inside the window then shifts every retained sequence
number to another slice.

`store_prepare` and `store_commit` copy `size()` bytes whatever the block's size is, so the slices
are modelled as the bytes that they are: a message longer than its block runs over what follows it.
What lies behind the last slice is memory as any other here.
-/

namespace TinyBFT.AgreementRegion

variable (P : Params)

/-- A block of a slice. -/
inductive Slot
  | prePrepare
  | prepare (i : Nat)
  | commit (i : Nat)
deriving DecidableEq, Repr

/-- A message as the region sees it: the sequence number in its header, and its `size()` bytes. -/
structure Msg where
  seqno : Int
  contents : List UInt8
deriving DecidableEq, Repr

def Msg.size (m : Msg) : Nat := m.contents.length

structure Region where
  head : Int
  headIndex : Nat
  slices : Memory

/-- The static initial values (`agreement_region.cc:64-66`), with no message in a block yet. -/
def init : Region where
  head := 1
  headIndex := 0
  slices := fun _ => 0

def maxSeqno (r : Region) : Int := r.head + P.maxOut - 1

def withinRange (r : Region) (n : Int) : Bool := r.head ≤ n && n ≤ maxSeqno P r

/-- `(head_index + (n - head)) % max_out`, in 64-bit unsigned arithmetic. -/
def certIndex (r : Region) (n : Int) : Nat :=
  ((r.headIndex + (n - r.head)) % 2 ^ 64).toNat % P.maxOut

/-- Number of bytes of a block: `sizeof(Prepare_rep)` is 64 and `sizeof(Commit_rep)` is 32. -/
def blockSize : Slot → Nat
  | .prePrepare => P.maxMessageSize
  | .prepare _ => 64 + P.authenticatorSize
  | .commit _ => 32 + P.authenticatorSize

/-- The bound on the block index that `load_prepare`, `store_prepare`, … assert. -/
def slotOk : Slot → Bool
  | .prePrepare => true
  | .prepare i | .commit i => i < P.regionF + 1

/-- A message object: the pointer and `max_size` of `Message`. -/
def objectSize : Nat := 16

/-- A block: the message object, and the bytes of the message behind it. -/
def stride (s : Slot) : Nat := objectSize + alignedSize (blockSize P s)

/-- Where a block begins in its slice. -/
def offset : Slot → Nat
  | .prePrepare => 0
  | .prepare i => stride P .prePrepare + i * stride P (.prepare i)
  | .commit i =>
    stride P .prePrepare + (P.regionF + 1) * stride P (.prepare i) + i * stride P (.commit i)

def sliceSize : Nat :=
  stride P .prePrepare + (P.regionF + 1) * stride P (.prepare 0) +
    (P.regionF + 1) * stride P (.commit 0)

/-- The address of `msg_` in a block of slice `p.1`. -/
def addr (p : Nat × Slot) : Nat := p.1 * sliceSize P + (offset P p.2 + objectSize)

/-- The block whose message `load_*` returns; `none` is a failed assertion. -/
def load (r : Region) (n : Int) (s : Slot) : Option (Nat × Slot) :=
  if withinRange P r n && slotOk P s then some (certIndex P r n, s) else none

/-- The copy into the block `s` of the slice of a message, whatever its size. -/
def write (r : Region) (s : Slot) (m : Msg) : Region :=
  { r with slices := Memory.write r.slices (addr P (certIndex P r m.seqno, s)) m.contents }

/-- The body of the three `store_*` functions. -/
def store (r : Region) (s : Slot) (m : Msg) : Option Region :=
  if withinRange P r m.seqno && slotOk P s then some (write P r s m) else none

/-- Only `store_pre_prepare` asserts that the message fits its block. -/
def storePrePrepare (r : Region) (m : Msg) : Option Region :=
  if m.size ≤ blockSize P .prePrepare then store P r .prePrepare m else none

def storePrepare (r : Region) (m : Msg) (i : Nat) : Option Region := store P r (.prepare i) m
def storeCommit (r : Region) (m : Msg) (i : Nat) : Option Region := store P r (.commit i) m

/-- `new_pre_prepare` writes to the slice of `n` without a range check. -/
def newPrePrepare (r : Region) (m : Msg) : Region := write P r .prePrepare m

def truncate (r : Region) (newHead : Int) : Region :=
  if newHead ≤ r.head then r
  else if !withinRange P r newHead then { r with headIndex := 0, head := newHead }
  else { r with headIndex := (newHead % P.maxOut).toNat, head := newHead }

/-- The calls the replica makes. -/
inductive Op
  | storePrePrepare (m : Msg)
  | storePrepare (m : Msg) (i : Nat)
  | storeCommit (m : Msg) (i : Nat)
  | newPrePrepare (m : Msg)
  | truncate (newHead : Int)
deriving DecidableEq, Repr

def step (r : Region) : Op → Option Region
  | .storePrePrepare m => storePrePrepare P r m
  | .storePrepare m i => storePrepare P r m i
  | .storeCommit m i => storeCommit P r m i
  | .newPrePrepare m => some (newPrePrepare P r m)
  | .truncate h => some (truncate P r h)

/-- The block and the message a call stores. -/
def Op.stores : Op → Option (Slot × Msg)
  | .storePrePrepare m | .newPrePrepare m => some (.prePrepare, m)
  | .storePrepare m i => some (.prepare i, m)
  | .storeCommit m i => some (.commit i, m)
  | .truncate _ => none

/-- `head_index` is the position of `head` itself. -/
def Aligned (r : Region) : Prop := r.headIndex = (r.head % P.maxOut).toNat

/-- The condition under which a call is sound: a truncation inside the window is made while the
region is aligned, a pre-prepare is built only for a sequence number in the window, and no message
is longer than its block. -/
def StepOk (r : Region) : Op → Prop
  | .truncate h => r.head < h → withinRange P r h = true → Aligned P r
  | .newPrePrepare m => withinRange P r m.seqno = true ∧ m.size ≤ blockSize P .prePrepare
  | .storePrePrepare _ => True
  | .storePrepare m i => m.size ≤ blockSize P (.prepare i)
  | .storeCommit m i => m.size ≤ blockSize P (.commit i)

instance : Decidable (Aligned P r) := inferInstanceAs (Decidable (_ = _))

instance : ∀ op, Decidable (StepOk P r op)
  | .truncate _ => inferInstanceAs (Decidable (_ < _ → _ = true → Aligned P _))
  | .newPrePrepare _ => inferInstanceAs (Decidable (_ = true ∧ _ ≤ _))
  | .storePrePrepare _ => inferInstanceAs (Decidable True)
  | .storePrepare _ _ | .storeCommit _ _ => inferInstanceAs (Decidable (_ ≤ _))

/-- What holds of `head` and `head_index` in every reachable region. -/
structure WF (r : Region) : Prop where
  head_pos : 0 < r.head
  headIndex_lt : r.headIndex < P.maxOut

variable {P} {r r' : Region} {n n' : Int}

theorem withinRange_iff : withinRange P r n = true ↔ r.head ≤ n ∧ n < r.head + P.maxOut := by
  simp only [withinRange, Bool.and_eq_true, decide_eq_true_eq]
  unfold maxSeqno
  omega

/-! ## Slices of the window -/

/-- Inside the window `cert_index` does not wrap at 64 bits. -/
theorem certIndex_of_within (hw : WF P r) (hn : withinRange P r n = true) :
    certIndex P r n = (r.headIndex + (n - r.head).toNat) % P.maxOut := by
  rw [withinRange_iff] at hn
  have hlt := P.maxOut_lt
  have hi := hw.headIndex_lt
  unfold certIndex
  rw [Int.emod_eq_of_lt (by omega) (by omega)]
  congr 1
  omega

/-- Two sequence numbers of the window never share a slice. -/
theorem certIndex_inj (hw : WF P r) (hn : withinRange P r n = true)
    (hn' : withinRange P r n' = true) (h : certIndex P r n = certIndex P r n') : n = n' := by
  rw [certIndex_of_within hw hn, certIndex_of_within hw hn'] at h
  rw [withinRange_iff] at hn hn'
  have hm : (n - r.head).toNat ≡ (n' - r.head).toNat [MOD P.maxOut] :=
    Nat.ModEq.add_left_cancel' _ h
  have := Nat.ModEq.eq_of_lt_of_lt hm (by omega) (by omega)
  omega

/-- In an aligned region the slice of `n` is `n % max_out`, whatever the head. -/
theorem certIndex_of_aligned (hw : WF P r) (ha : Aligned P r) (hn : withinRange P r n = true) :
    certIndex P r n = (n % P.maxOut).toNat := by
  rw [certIndex_of_within hw hn, ha]
  rw [withinRange_iff] at hn
  have hp := hw.head_pos
  have hM : (0 : Int) < P.maxOut := by exact_mod_cast P.maxOut_pos
  have h1 := Int.emod_nonneg r.head hM.ne'
  have h2 := Int.emod_nonneg n hM.ne'
  apply Int.ofNat.inj
  simp only [Int.ofNat_eq_natCast]
  push_cast
  rw [Int.toNat_of_nonneg h1, Int.toNat_of_nonneg h2, Int.toNat_of_nonneg (by omega),
    Int.emod_add_emod]
  congr 1
  omega

/-! ## Blocks of a slice -/

theorem le_stride (P : Params) (s : Slot) : blockSize P s + objectSize ≤ stride P s := by
  have := le_alignedSize (blockSize P s)
  unfold stride
  omega

theorem mul_add_le {i j : Nat} (k : Nat) (h : i < j) : i * k + k ≤ j * k := by
  rw [← Nat.succ_mul]
  exact Nat.mul_le_mul_right k h

theorem index_le {i : Nat} (hi : decide (i < P.regionF + 1) = true) (k : Nat) :
    i * k + k ≤ (P.regionF + 1) * k :=
  mul_add_le k (of_decide_eq_true hi)

theorem stride_prepare (i : Nat) : stride P (.prepare i) = stride P (.prepare 0) := rfl
theorem stride_commit (i : Nat) : stride P (.commit i) = stride P (.commit 0) := rfl

theorem offset_le {s : Slot} (hs : slotOk P s = true) : offset P s + stride P s ≤ sliceSize P := by
  unfold sliceSize
  cases s with
  | prePrepare =>
    simp only [offset]
    omega
  | prepare i =>
    have := index_le hs (stride P (.prepare 0))
    simp only [offset, stride_prepare i]
    omega
  | commit i =>
    have := index_le hs (stride P (.commit 0))
    simp only [offset, stride_prepare i, stride_commit i]
    omega

theorem offset_disjoint {s t : Slot} (hs : slotOk P s = true) (ht : slotOk P t = true)
    (hne : s ≠ t) :
    offset P s + stride P s ≤ offset P t ∨ offset P t + stride P t ≤ offset P s := by
  -- blocks of one kind follow one another by their index
  have hmul : ∀ {i j : Nat} (k : Nat), i ≠ j → i * k + k ≤ j * k ∨ j * k + k ≤ i * k :=
    fun k hij => (lt_or_gt_of_ne hij).imp (mul_add_le k) (mul_add_le k)
  cases s <;> cases t <;> simp only [offset, stride_prepare, stride_commit]
  case prePrepare.prePrepare => exact absurd rfl hne
  case prepare.prepare =>
    have := hmul (stride P (.prepare 0)) fun hij => hne (congrArg Slot.prepare hij)
    omega
  case commit.commit =>
    have := hmul (stride P (.commit 0)) fun hij => hne (congrArg Slot.commit hij)
    omega
  case prepare.commit =>
    have := index_le hs (stride P (.prepare 0))
    omega
  case commit.prepare =>
    have := index_le ht (stride P (.prepare 0))
    omega
  all_goals omega

/-- Two blocks have no byte in common. -/
theorem addr_disjoint {k k' : Nat} {s t : Slot} (hs : slotOk P s = true) (ht : slotOk P t = true)
    (hne : (k, s) ≠ (k', t)) :
    addr P (k, s) + blockSize P s ≤ addr P (k', t) ∨
      addr P (k', t) + blockSize P t ≤ addr P (k, s) := by
  have hs' := offset_le hs
  have ht' := offset_le ht
  have hls := le_stride P s
  have hlt := le_stride P t
  simp only [addr]
  rcases lt_trichotomy k k' with hk | rfl | hk
  · have := mul_add_le (sliceSize P) hk
    omega
  · have := offset_disjoint hs ht fun h => hne (by rw [h])
    omega
  · have := mul_add_le (sliceSize P) hk
    omega

/-! ## What one call does -/

@[simp] theorem write_head (s : Slot) (m : Msg) : (write P r s m).head = r.head := rfl
@[simp] theorem write_headIndex (s : Slot) (m : Msg) : (write P r s m).headIndex = r.headIndex :=
  rfl
@[simp] theorem write_withinRange (s : Slot) (m : Msg) :
    withinRange P (write P r s m) n = withinRange P r n := rfl
@[simp] theorem write_certIndex (s : Slot) (m : Msg) :
    certIndex P (write P r s m) n = certIndex P r n := rfl
@[simp] theorem truncate_slices (h : Int) : (truncate P r h).slices = r.slices := by
  unfold truncate; split <;> [rfl; split <;> rfl]

/-- What a block holds is not touched by a copy to another block that is large enough. -/
theorem write_holds {s t : Slot} {m : Msg} {k : Nat} {bs : List UInt8} (hs : slotOk P s = true)
    (ht : slotOk P t = true) (hfit : m.size ≤ blockSize P s) (hbs : bs.length ≤ blockSize P t)
    (hne : (certIndex P r m.seqno, s) ≠ (k, t)) :
    Memory.Holds (write P r s m).slices (addr P (k, t)) bs ↔
      Memory.Holds r.slices (addr P (k, t)) bs := by
  have h := addr_disjoint hs ht hne
  unfold Msg.size at hfit
  exact Memory.holds_write_of_disjoint (by omega)

/-- A step either stores one message, or truncates. -/
theorem step_cases {op : Op} (h : step P r op = some r') :
    (∃ s m, op.stores = some (s, m) ∧ slotOk P s = true ∧ r' = write P r s m ∧
      (StepOk P r op → withinRange P r m.seqno = true ∧ m.size ≤ blockSize P s)) ∨
    (∃ h, op = .truncate h ∧ r' = truncate P r h) := by
  have hstore : ∀ s m, store P r s m = some r' →
      slotOk P s = true ∧ r' = write P r s m ∧ withinRange P r m.seqno = true := by
    intro s m hs
    simp only [store] at hs
    split at hs
    · rename_i hc
      simp only [Bool.and_eq_true] at hc
      exact ⟨hc.2, (Option.some.inj hs).symm, hc.1⟩
    · cases hs
  cases op with
  | storePrePrepare m =>
    simp only [step, storePrePrepare] at h
    split at h
    · rename_i hfit
      obtain ⟨h1, h2, h3⟩ := hstore _ _ h
      exact .inl ⟨_, m, rfl, h1, h2, fun _ => ⟨h3, hfit⟩⟩
    · cases h
  | storePrepare m i =>
    obtain ⟨h1, h2, h3⟩ := hstore _ _ h
    exact .inl ⟨_, m, rfl, h1, h2, fun hok => ⟨h3, hok⟩⟩
  | storeCommit m i =>
    obtain ⟨h1, h2, h3⟩ := hstore _ _ h
    exact .inl ⟨_, m, rfl, h1, h2, fun hok => ⟨h3, hok⟩⟩
  | newPrePrepare m => exact .inl ⟨_, m, rfl, rfl, (Option.some.inj h).symm, id⟩
  | truncate hd => exact .inr ⟨hd, rfl, (Option.some.inj h).symm⟩

theorem truncate_wf (hw : WF P r) (h : Int) : WF P (truncate P r h) := by
  have hp := hw.head_pos
  have hM : (0 : Int) < P.maxOut := by exact_mod_cast P.maxOut_pos
  unfold truncate
  split
  · exact hw
  · split
    · exact ⟨by simp only; omega, P.maxOut_pos⟩
    · refine ⟨by simp only; omega, ?_⟩
      have := Int.emod_lt_of_pos h hM
      simp only
      omega

theorem step_wf {op : Op} (hw : WF P r) (h : step P r op = some r') : WF P r' := by
  obtain ⟨s, m, -, -, rfl, -⟩ | ⟨hd, rfl, rfl⟩ := step_cases h
  · exact ⟨hw.head_pos, hw.headIndex_lt⟩
  · exact truncate_wf hw hd

theorem init_wf : WF P init := ⟨by decide, P.maxOut_pos⟩

/-- The head never moves back. -/
theorem step_head_le {op : Op} (h : step P r op = some r') : r.head ≤ r'.head := by
  obtain ⟨s, m, -, -, rfl, -⟩ | ⟨hd, rfl, rfl⟩ := step_cases h
  · simp
  · unfold truncate
    split
    · exact le_refl _
    · split <;> simp only <;> omega

/-! ## Truncation inside the window -/

/-- A sequence number that is in the window before and after a truncation that moves the head was
retained by a truncation inside the window. -/
theorem truncate_retained {h : Int} (hlt : r.head < h) (hn : withinRange P r n = true)
    (hn' : withinRange P (truncate P r h) n = true) :
    withinRange P r h = true ∧
      truncate P r h = { r with headIndex := (h % P.maxOut).toNat, head := h } := by
  rw [withinRange_iff] at hn
  have hle : ¬ h ≤ r.head := by omega
  have hh : h ≤ n := by
    rw [withinRange_iff] at hn'
    simp only [truncate, hle, if_false] at hn'
    split at hn' <;> exact hn'.1
  have hw : withinRange P r h = true := withinRange_iff.2 (by omega)
  exact ⟨hw, by simp [truncate, hle, hw]⟩

/-- After a truncation inside the window the region is aligned. -/
theorem truncate_aligned {h : Int} (hlt : r.head < h) (hh : withinRange P r h = true) :
    Aligned P (truncate P r h) := by
  have hle : ¬ h ≤ r.head := by omega
  simp [truncate, hle, hh, Aligned]

/-- **When a truncation keeps a retained message in its slice**: exactly when the region was
aligned. -/
theorem truncate_certIndex_iff {h : Int} (hw : WF P r) (hlt : r.head < h)
    (hn : withinRange P r n = true) (hn' : withinRange P (truncate P r h) n = true) :
    certIndex P (truncate P r h) n = certIndex P r n ↔ Aligned P r := by
  obtain ⟨hh, -⟩ := truncate_retained hlt hn hn'
  rw [certIndex_of_aligned (truncate_wf hw h) (truncate_aligned hlt hh) hn']
  constructor
  · intro he
    rw [certIndex_of_within hw hn] at he
    rw [withinRange_iff] at hn
    have hp := hw.head_pos
    have hi := hw.headIndex_lt
    have hM : (0 : Int) < P.maxOut := by exact_mod_cast P.maxOut_pos
    have h1 := Int.emod_nonneg r.head hM.ne'
    have h2 := Int.emod_nonneg n hM.ne'
    have he' := congrArg (Nat.cast (R := Int)) he
    push_cast at he'
    rw [Int.toNat_of_nonneg h2, Int.toNat_of_nonneg (by omega)] at he'
    -- `n ≡ head_index + (n - head)`, so `head ≡ head_index`
    have hc : (r.headIndex : Int) ≡ r.head [ZMOD P.maxOut] := by
      have : n ≡ r.headIndex + (n - r.head) [ZMOD P.maxOut] := he'
      have h3 := (this.sub_right (n - r.head)).symm
      simpa using h3
    unfold Aligned
    have h3 : ((r.headIndex : Int) % P.maxOut) = r.head % P.maxOut := hc
    rw [Int.emod_eq_of_lt (by omega) (by omega)] at h3
    omega
  · intro ha
    rw [certIndex_of_aligned hw ha hn]

/-! ## Runs -/

/-- One sound step keeps the slice of a message that stays in the window, and its bytes if it is not
stored again. -/
theorem step_keeps {op : Op} {s : Slot} {bs : List UInt8} (hw : WF P r) (hok : StepOk P r op)
    (h : step P r op = some r') (hn : withinRange P r n = true) (hn' : withinRange P r' n = true)
    (hs : slotOk P s = true) (hbs : bs.length ≤ blockSize P s)
    (hns : ∀ m, op.stores = some (s, m) → m.seqno ≠ n) :
    certIndex P r' n = certIndex P r n ∧
      (Memory.Holds r'.slices (addr P (certIndex P r n, s)) bs ↔
          Memory.Holds r.slices (addr P (certIndex P r n, s)) bs) := by
  obtain ⟨t, m, hst, ht, rfl, hfit⟩ | ⟨hd, rfl, rfl⟩ := step_cases h
  · obtain ⟨hm, hfit⟩ := hfit hok
    refine ⟨rfl, write_holds ht hs hfit hbs fun heq => ?_⟩
    obtain ⟨hidx, rfl⟩ := Prod.mk.inj heq
    exact hns m hst (certIndex_inj hw hm hn hidx)
  · rw [truncate_slices]
    refine ⟨?_, Iff.rfl⟩
    by_cases hlt : r.head < hd
    · obtain ⟨hh, -⟩ := truncate_retained hlt hn hn'
      exact (truncate_certIndex_iff hw hlt hn hn').2 (hok hlt hh)
    · simp [truncate, show hd ≤ r.head by omega]

theorem run_head_le :
    ∀ {ops : List Op} {r r' : Region}, Run.run (step P) r ops = some r' → r.head ≤ r'.head
  | [], _, _, h => by simp at h; rw [h]
  | _ :: _, _, _, h => by
    obtain ⟨t, ht, hr⟩ := Run.run_cons.1 h
    exact le_trans (step_head_le ht) (run_head_le hr)

/-- A run of sound steps keeps the slice of a message that is still in the window at its end, and
its bytes if it is not stored again. -/
theorem run_keeps {s : Slot} {bs : List UInt8} (hs : slotOk P s = true)
    (hbs : bs.length ≤ blockSize P s) :
    ∀ {ops : List Op} {r r' : Region}, WF P r →
    Run.Meets (step P) (StepOk P) r ops → Run.run (step P) r ops = some r' →
    withinRange P r n = true → withinRange P r' n = true →
    (∀ op ∈ ops, ∀ m, op.stores = some (s, m) → m.seqno ≠ n) →
    certIndex P r' n = certIndex P r n ∧
      (Memory.Holds r'.slices (addr P (certIndex P r n, s)) bs ↔
          Memory.Holds r.slices (addr P (certIndex P r n, s)) bs)
  | [], r, r', _, _, hr, _, _, _ => by simp at hr; subst hr; exact ⟨rfl, Iff.rfl⟩
  | op :: ops, r, r', hw, hok, hr, hn, hn', hns => by
    obtain ⟨t, ht, hrt⟩ := Run.run_cons.1 hr
    -- the head only grows, so `n` is in the window in between too
    have hnt : withinRange P t n = true := by
      have h1 := step_head_le ht
      have h2 := run_head_le hrt
      rw [withinRange_iff] at hn hn' ⊢
      omega
    obtain ⟨hc, hmem⟩ := step_keeps hw hok.1 ht hn hnt hs hbs (hns op List.mem_cons_self)
    obtain ⟨hc', hmem'⟩ := run_keeps hs hbs (step_wf hw ht) (hok.2 t ht) hrt hnt hn'
      (fun o ho => hns o (List.mem_cons_of_mem _ ho))
    rw [hc] at hmem'
    exact ⟨hc'.trans hc, hmem'.trans hmem⟩

/-- **The region is a sliding window** in every run whose truncations inside the window are made
while the region is aligned, whose pre-prepares are built inside the window and whose messages fit
their blocks: two sequence numbers of the window never share a slice, and for a message that is
still in the window and was not stored again the block is the one it was stored in, with its
bytes. -/
theorem region_sliding_window {ops : List Op} {r : Region}
    (hrun : Run.run (step P) init ops = some r) (hok : Run.Meets (step P) (StepOk P) init ops) :
    (∀ n n', withinRange P r n = true → withinRange P r n' = true →
        certIndex P r n = certIndex P r n' → n = n') ∧
    (∀ pre op post s m rs, ops = pre ++ op :: post → op.stores = some (s, m) →
      Run.run (step P) init (pre ++ [op]) = some rs →
        (∀ o ∈ post, ∀ m', o.stores = some (s, m') → m'.seqno ≠ m.seqno) →
      withinRange P r m.seqno = true →
      load P r m.seqno s = some (certIndex P rs m.seqno, s) ∧
        Memory.Holds r.slices (addr P (certIndex P rs m.seqno, s)) m.contents) := by
  have hwf : ∀ {ops r}, Run.run (step P) init ops = some r → WF P r :=
    fun hr => Run.invariant_of_step (fun _ _ _ hi hs => step_wf hi hs) init_wf hr
  refine ⟨fun n n' hn hn' h => certIndex_inj (hwf hrun) hn hn' h, ?_⟩
  rintro pre op post s m rs rfl hst hrs hns hr
  have hsplit : pre ++ op :: post = (pre ++ [op]) ++ post := by simp
  rw [hsplit] at hrun hok
  obtain ⟨t, ht, hpost⟩ := Run.run_append.1 hrun
  rw [hrs] at ht; cases ht
  obtain ⟨r0, hr0, hop⟩ := Run.run_append.1 hrs
  obtain ⟨r1, hop, hnil⟩ := Run.run_cons.1 hop
  rw [Run.run_nil] at hnil; cases hnil
  obtain ⟨hokpre, hokpost⟩ := Run.meets_append hok hrs
  have hokop := (Run.meets_append hokpre hr0).2.1
  -- the store itself
  obtain ⟨t, m', hst', hslot, rfl, hfit⟩ | ⟨hd, rfl, -⟩ := step_cases hop
  · rw [hst] at hst'
    obtain ⟨rfl, rfl⟩ := Prod.mk.inj (Option.some.inj hst')
    obtain ⟨hm, hfit⟩ := hfit hokop
    obtain ⟨hc, hmem⟩ := run_keeps hslot hfit (hwf hrs) hokpost hpost hm hr hns
    refine ⟨by simp [load, hr, hslot, hc], ?_⟩
    rw [write_certIndex] at hmem ⊢
    exact hmem.2 (Memory.holds_write ..)
  · simp [Op.stores] at hst

/-- A message of 64 bytes for `n`. -/
def messageFor (n : Int) : Msg := ⟨n, List.replicate 64 7⟩

/-- A run of the default build through both kinds of truncation: past the window to `512`, a
multiple of `max_out`, and then inside the window, twice. -/
theorem region_sliding_window_default :
    let ops : List Op :=
      [.storePrePrepare (messageFor 5), .truncate 512, .storePrePrepare (messageFor 700),
        .truncate 600, .truncate 650]
    ∃ r, Run.run (step .default) init ops = some r ∧
      load .default r 700 .prePrepare = some (188, .prePrepare) ∧
      Memory.Holds r.slices (addr .default (188, .prePrepare)) (messageFor 700).contents := by
  intro ops
  refine ⟨_, rfl, ?_⟩
  have hrun : Run.run (step .default) init ops = some _ := rfl
  exact (region_sliding_window hrun (by decide)).2
    [.storePrePrepare (messageFor 5), .truncate 512] (.storePrePrepare (messageFor 700))
      [.truncate 600, .truncate 650]
    .prePrepare (messageFor 700) _ rfl rfl rfl (by simp [Op.stores]) (by decide)

/-- **The first checkpoint breaks the region.** With the default parameters a replica stores a
pre-prepare for `200`, and the checkpoint at `128` becomes stable (`mark_stable` truncates to
`129`): `load_pre_prepare(200)` then returns the slice of another sequence number. A prepare that is
longer than its block, besides, runs over the one in the next block. -/
theorem region_first_truncate_shifts :
    (∃ r, Run.run (step .default) init [.storePrePrepare (messageFor 200), .truncate 129] = some r ∧
      withinRange .default r 200 = true ∧ certIndex .default init 200 = 199 ∧
      load .default r 200 .prePrepare = some (200, .prePrepare) ∧
      ¬Memory.Holds r.slices (addr .default (200, .prePrepare)) (messageFor 200).contents) ∧
    ∃ r, Run.run (step .default) init [.storePrepare (messageFor 5) 1,
        .storePrepare ⟨5, List.replicate 2000 9⟩ 0] = some r ∧
      load .default r 5 (.prepare 1) = some (4, .prepare 1) ∧
      ¬Memory.Holds r.slices (addr .default (4, .prepare 1)) (messageFor 5).contents := by
  refine ⟨⟨_, rfl, ?_⟩, ⟨_, rfl, ?_⟩⟩
  all_goals decide +kernel

end TinyBFT.AgreementRegion
