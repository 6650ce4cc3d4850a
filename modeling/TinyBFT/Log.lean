import TinyBFT.Basic
import Mathlib.Data.Nat.Basic
import Mathlib.Tactic.Ring

/-!
# The logs (`Log.h`, `Log.t`, `checkpoint_log.h`, `checkpoint_log.cc`)

| here | there |
| --- | --- |
| `Log`           | `Log<T>` (`Log.h:10-65`); `elems` is the array, `size` its `max_size` |
| `Log.slot`      | `mod` (`Log.h:67-70`): `s & mask`, for the powers of two that `Log.h:25` asks for |
| `Log.fetch`     | `fetch` (`Log.t:43-46`), `none` its `th_assert`; `set` writes through the reference it returns |
| `Log.truncate`  | `truncate` (`Log.t:49-68`) with its `int` loop bounds |
| `CheckpointLog` | `CheckpointLog`, the log of checkpoint certificates of the static build |
| `CheckpointLog.index`, `fetch`, `truncate`, `clearAll` | `certificate_index`, `fetch`, `truncate`, `clear` |

An array is a function from indices: its length is fixed and every index used is in bounds. What
`clear` does to an element depends on the element, so it is a parameter.
-/

namespace TinyBFT

structure Log (α : Type) where
  head : Int
  elems : Nat → α

namespace Log

variable {α : Type} (size : Nat) (clear : α → α)

def slot (s : Int) : Nat := (s % size).toNat

def withinRange (l : Log α) (n : Int) : Bool := l.head ≤ n && n < l.head + size

/-- The element of `n`, which is the one `fetch` returns where `n` is within range. -/
def entry (l : Log α) (n : Int) : α := l.elems (slot size n)

def fetch (l : Log α) (n : Int) : Option α :=
  if l.withinRange size n then some (l.entry size n) else none

def set (l : Log α) (n : Int) (a : α) : Log α :=
  { l with elems := Function.update l.elems (slot size n) a }

/-- The elements with an index in `i, …, max - 1` are cleared. -/
def clearFrom (l : Log α) (i max : Int) : Nat → α := fun k =>
  if (List.range (max - i).toNat).any fun j => slot size (i + j) == k then
    clear (l.elems k) else l.elems k

def truncate (l : Log α) (newHead : Int) : Log α :=
  if newHead ≤ l.head then l
  else if size ≤ newHead - l.head then { head := newHead, elems := clearFrom size clear l 0 size }
  else { head := newHead, elems := clearFrom size clear l (toInt l.head) (toInt newHead) }

/-! ## What `truncate` keeps -/

variable {size clear} {l : Log α} {n m : Int}

@[simp] theorem head_set (a : α) : (l.set size n a).head = l.head := rfl

theorem slot_lt (h : 0 < size) : slot size n < size := by
  have h1 := Int.emod_nonneg n (b := size) (by omega)
  have h2 := Int.emod_lt_of_pos n (b := size) (by omega)
  unfold slot
  omega

theorem slot_eq_iff (h : 0 < size) : slot size n = slot size m ↔ n % size = m % size := by
  have h1 := Int.emod_nonneg n (b := size) (by omega)
  have h2 := Int.emod_nonneg m (b := size) (by omega)
  unfold slot
  omega

/-- Two sequence numbers of one window have different slots. -/
theorem slot_inj {lo : Int} (hn : lo ≤ n ∧ n < lo + size) (hm : lo ≤ m ∧ m < lo + size)
    (h : slot size n = slot size m) :
    n = m := by
  have hpos : 0 < size := by omega
  rw [slot_eq_iff hpos] at h
  have hd : (size : Int) ∣ n - m :=
    Int.dvd_of_emod_eq_zero (Int.emod_eq_emod_iff_emod_sub_eq_zero.1 h)
  have := Int.eq_zero_of_abs_lt_dvd hd (by rw [abs_lt]; omega)
  omega

theorem entry_set_self (a : α) : (l.set size n a).entry size n = a := by simp [entry, set]

theorem entry_set_of_slot_ne (a : α) (h : slot size m ≠ slot size n) :
    (l.set size n a).entry size m = l.entry size m := by
  simp [entry, set, h]

/-- Writing through the reference for `n` leaves the other elements of the window alone. -/
theorem entry_set_of_ne (a : α) (hn : l.withinRange size n = true)
    (hm : l.withinRange size m = true) (h : m ≠ n) :
    (l.set size n a).entry size m = l.entry size m := by
  simp only [withinRange, Bool.and_eq_true, decide_eq_true_eq] at hn hm
  exact entry_set_of_slot_ne a fun hs => h (slot_inj hm hn hs)

theorem fetch_eq_some {a : α} :
    l.fetch size n = some a ↔ l.withinRange size n = true ∧ l.entry size n = a := by
  unfold fetch
  split <;> simp_all

/-- Every element of a truncated log is one of the log, or one that was cleared. -/
theorem truncate_elems (newHead : Int) (k : Nat) :
    (l.truncate size clear newHead).elems k = l.elems k ∨
      (l.truncate size clear newHead).elems k = clear (l.elems k) := by
  have hc : ∀ i max, clearFrom size clear l i max k = l.elems k ∨
    clearFrom size clear l i max k = clear (l.elems k) := by
    intro i max
    unfold clearFrom
    split
    · exact .inr rfl
    · exact .inl rfl
  unfold truncate
  split
  · exact .inl rfl
  · split
    · exact hc _ _
    · exact hc _ _

theorem truncate_head (newHead : Int) :
    (l.truncate size clear newHead).head = max l.head newHead := by
  unfold truncate
  split
  · rw [max_eq_left ‹_›]
  · have : l.head ≤ newHead := by omega
    split <;> simp [this]

/-- The difference of two `int`s made from numbers less than `2 ^ 31` apart is their difference, or
negative. -/
theorem toInt_sub_cases {a b : Int} (h0 : a ≤ b) (h1 : b - a < 2 ^ 31) :
    toInt b - toInt a = b - a ∨ toInt b ≤ toInt a := by
  unfold toInt
  rw [Int.bmod_def, Int.bmod_def]
  split <;> split <;> omega

/-- The `int` that a loop over the elements starts from has the slot of the sequence number. -/
theorem slot_toInt_add (hdvd : size ∣ 2 ^ 32) (a : Int) (j : Int) :
    slot size (toInt a + j) = slot size (a + j) := by
  have hd : (size : Int) ∣ toInt a - a := by
    have h32 : ((2 : Int) ^ 32) ∣ toInt a - a := by
      unfold toInt
      have := Int.bmod_emod (x := a) (m := 2 ^ 32)
      exact Int.dvd_of_emod_eq_zero (Int.emod_eq_emod_iff_emod_sub_eq_zero.1 (by simpa using this))
    exact dvd_trans (by exact_mod_cast hdvd) h32
  have hmod : (toInt a + j) % size = (a + j) % size := by
    rw [Int.emod_eq_emod_iff_emod_sub_eq_zero]
    have : toInt a + j - (a + j) = toInt a - a := by ring
    rw [this]
    exact Int.emod_eq_zero_of_dvd hd
  unfold slot
  rw [hmod]

/-- **`truncate` keeps what stays in range.** Whatever the `int` loop bounds become, it clears no
element of the new window that was in the old one; the size has to divide `2 ^ 32`, which the powers
of two up to it do. -/
theorem entry_truncate {newHead : Int} (hdvd : size ∣ 2 ^ 32) (hsize : size < 2 ^ 31)
    (h1 : newHead ≤ n) (h2 : n < l.head + size) :
    (l.truncate size clear newHead).entry size n = l.entry size n := by
  unfold truncate
  split
  · rfl
  rename_i hlt
  split
  · omega
  rename_i hnear
  simp only [entry, clearFrom]
  rw [if_neg]
  intro hany
  obtain ⟨j, hj, hs⟩ := List.any_eq_true.1 hany
  have hj : (j : Int) < toInt newHead - toInt l.head := by
    rw [List.mem_range] at hj
    omega
  have hs : slot size (toInt l.head + j) = slot size n := by simpa using hs
  rcases toInt_sub_cases (a := l.head) (b := newHead) (by omega) (by omega) with he | he
  · -- the loop runs over the sequence numbers from the old head, reduced modulo `2 ^ 32`
    rw [slot_toInt_add hdvd] at hs
    have heq : l.head + j = n := slot_inj ⟨by omega, by omega⟩ ⟨by omega, h2⟩ hs
    omega
  · omega

/-- The `int` loop bounds of `truncate` do not wrap. -/
def NoWrap (l : Log α) (size : Nat) (newHead : Int) : Prop :=
  newHead - l.head < size → toInt l.head < toInt newHead

/-- Every slot is that of a sequence number of the window. -/
theorem exists_slot (hpos : 0 < size) (n : Int) :
    ∃ m, l.head ≤ m ∧ m < l.head + size ∧ slot size m = slot size n := by
  have h0 := Int.emod_nonneg (n - l.head) (b := size) (by omega)
  have h1 := Int.emod_lt_of_pos (n - l.head) (b := size) (by omega)
  refine ⟨l.head + (n - l.head) % size, by omega, by omega, (slot_eq_iff hpos).2 ?_⟩
  rw [Int.add_emod_emod]
  congr 1
  omega

/-- **`truncate` clears what leaves the range**, unless its loop bounds wrap: the element of a
sequence number that enters the window is a cleared one of the old window. -/
theorem entry_truncate_new {newHead : Int} (hdvd : size ∣ 2 ^ 32) (hsize : size < 2 ^ 31)
    (hpos : 0 < size) (hw : NoWrap l size newHead) (hlt : l.head < newHead) (h1 : l.head + size ≤ n)
    (h2 : n < newHead + size) :
    ∃ m, l.head ≤ m ∧ m < l.head + size ∧ m < newHead ∧
      (l.truncate size clear newHead).entry size n = clear (l.entry size m) := by
  have hslot : ∀ m, m % size = n % size → slot size m = slot size n :=
    fun m hm => (slot_eq_iff hpos).2 hm
  unfold truncate
  rw [if_neg (by omega)]
  split
  · rename_i hfar
    obtain ⟨m, hm1, hm2, hs⟩ := exists_slot (l := l) hpos n
    refine ⟨m, hm1, hm2, by omega, ?_⟩
    · simp only [entry, clearFrom, hs]
      rw [if_pos]
      refine List.any_eq_true.2 ⟨slot size n, ?_, ?_⟩
      · rw [List.mem_range]
        have := slot_lt (n := n) hpos
        omega
      · have h0 := Int.emod_nonneg n (b := size) (by omega)
        have hk : ((slot size n : Nat) : Int) = n % size := by
          unfold slot
          omega
        rw [beq_iff_eq, zero_add, hk, slot_eq_iff hpos]
        exact Int.emod_emod _ _
  · rename_i hnear
    have hnear : newHead - l.head < size := by omega
    have hdiff : toInt newHead - toInt l.head = newHead - l.head := by
      have := hw hnear
      rcases toInt_sub_cases (a := l.head) (b := newHead) (by omega) (by omega) with he | he
      · exact he
      · omega
    refine ⟨n - size, by omega, by omega, by omega, ?_⟩
    have hs : slot size (n - size) = slot size n := hslot _ (by rw [Int.sub_emod_right])
    simp only [entry, clearFrom, hs]
    rw [if_pos]
    refine List.any_eq_true.2 ⟨(n - size - l.head).toNat, ?_, ?_⟩
    · rw [List.mem_range]
      omega
    · rw [slot_toInt_add hdvd]
      simp only [beq_iff_eq]
      rw [← hs]
      congr 1
      omega

end Log

/-! ## The checkpoint log of the static build -/

/-- `certs_` holds `max_out / checkpoint_interval + 1` elements. -/
structure CheckpointLog (α : Type) where
  head : Int
  headIndex : Nat
  certs : Nat → α

namespace CheckpointLog

variable {α : Type} (P : Params) (clear : α → α)

/-- `MAX_SIZE`. -/
def maxSize : Nat := P.maxOut / P.ckptInterval + 1

def withinRange (l : CheckpointLog α) (n : Int) : Bool := l.head ≤ n && n ≤ l.head + P.maxOut

/-- `certificate_index`, for a sequence number that is not below the head. -/
def index (l : CheckpointLog α) (n : Int) : Nat :=
  (l.headIndex + ((n - l.head) / P.ckptInterval).toNat) % maxSize P

def fetch (l : CheckpointLog α) (n : Int) : Option α :=
  if l.withinRange P n && n % P.ckptInterval == 0 then some (l.certs (l.index P n)) else none

def set (l : CheckpointLog α) (n : Int) (a : α) : CheckpointLog α :=
  { l with certs := Function.update l.certs (l.index P n) a }

def clearAll (l : CheckpointLog α) (h : Int) : CheckpointLog α :=
  { l with head := h, certs := fun k => clear (l.certs k) }

/-- The loop of `truncate`: the certificates of the checkpoints below the new head. -/
def clearBelow (l : CheckpointLog α) (newHead : Int) : Nat → α := fun k =>
  if (List.range ((newHead - l.head + P.ckptInterval - 1) / P.ckptInterval).toNat).any fun j :
    Nat =>
      l.index P (l.head + j * P.ckptInterval) == k then clear (l.certs k)
  else l.certs k

def truncate (l : CheckpointLog α) (newHead : Int) : Option (CheckpointLog α) :=
  if newHead ≤ l.head then some l
  else if newHead % P.ckptInterval ≠ 0 then none
  else if !l.withinRange P newHead then some (l.clearAll clear newHead)
  else
    some { head := newHead, headIndex := l.index P newHead, certs := l.clearBelow P clear newHead }

end CheckpointLog

end TinyBFT
