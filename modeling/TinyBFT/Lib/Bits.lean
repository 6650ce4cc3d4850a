import Mathlib.Data.Nat.Basic
import Mathlib.Logic.Function.Basic

/-!
# Bits in byte memory

A bitmap is a pointer into byte memory: bit `i` of the bitmap at `p` is bit `i % 8` of the byte at
`p + i / 8`. Nothing says how long a bitmap is, so bitmaps that lie behind one another share bits:
`p` and `i` matter through `8 * p + i` only (`test_set`).
-/

namespace Bits

abbrev Memory := Nat → BitVec 8

def set (m : Memory) (p i : Nat) : Memory :=
  Function.update m (p + i / 8) (m (p + i / 8) ||| 1#8 <<< (i % 8))

def test (m : Memory) (p i : Nat) : Bool := m (p + i / 8) &&& 1#8 <<< (i % 8) != 0

/-- `n` bytes from `src` are copied to `p`. -/
def write (m : Memory) (p n : Nat) (src : Memory) : Memory :=
  fun k => if p ≤ k ∧ k < p + n then src (k - p) else m k

def zero (m : Memory) (p n : Nat) : Memory := write m p n fun _ => 0

theorem and_shift_ne_zero (b : BitVec 8) {k : Nat} (hk : k < 8) :
    (b &&& 1#8 <<< k != 0) = b.getLsbD k := by
  rw [Bool.eq_iff_iff, bne_iff_ne, ne_eq]
  constructor
  · intro h
    by_contra hb
    refine h (BitVec.eq_of_getLsbD_eq fun i hi => ?_)
    rcases eq_or_ne i k with rfl | hne
    · simp [hb]
    · have : ¬(i - k = 0 ∧ k ≤ i) := by omega
      simp [BitVec.getLsbD_one]
      omega
  · intro hb h
    have hk' := congrArg (fun x => x.getLsbD k) h
    simp only [BitVec.getLsbD_and, hb] at hk'
    simp [hk] at hk'

theorem test_eq (m : Memory) (p i : Nat) : test m p i = (m (p + i / 8)).getLsbD (i % 8) :=
  and_shift_ne_zero _ (Nat.mod_lt _ (by decide))

theorem or_shift_getLsbD (b : BitVec 8) {j k : Nat} (hj : j < 8) :
    (b ||| 1#8 <<< k).getLsbD j = (decide (k = j) || b.getLsbD j) := by
  rcases eq_or_ne k j with rfl | hne
  · simp [hj]
  · have : ¬(k ≤ j ∧ j - k = 0) := by omega
    simp [BitVec.getLsbD_one, hne]
    omega

theorem test_set (m : Memory) (p i q j : Nat) :
    test (set m p i) q j = (decide (8 * p + i = 8 * q + j) || test m q j) := by
  simp only [test_eq, set]
  by_cases hb : q + j / 8 = p + i / 8
  · rw [hb, Function.update_self, or_shift_getLsbD _ (Nat.mod_lt _ (by decide))]
    congr 1
    rw [decide_eq_decide]
    omega
  · rw [Function.update_of_ne hb]
    have : ¬8 * p + i = 8 * q + j := by omega
    simp [this]

theorem test_write_of_lt (m : Memory) {p n q j : Nat} (src : Memory) (h : q + j / 8 < p) :
    test (write m p n src) q j = test m q j := by
  have : ¬(p ≤ q + j / 8 ∧ q + j / 8 < p + n) := by omega
  simp only [test, write, this, if_false]

theorem test_write (m : Memory) {p n j : Nat} (src : Memory) (h : j / 8 < n) :
    test (write m p n src) p j = test src 0 j := by
  have : p ≤ p + j / 8 ∧ p + j / 8 < p + n := by omega
  simp only [test, write, this, and_self, if_true, Nat.add_sub_cancel_left, Nat.zero_add]

theorem test_zero (m : Memory) {p n q j : Nat} (h1 : p ≤ q + j / 8) (h2 : q + j / 8 < p + n) :
    test (zero m p n) q j = false := by
  simp [test, zero, write, h1, h2]

end Bits
