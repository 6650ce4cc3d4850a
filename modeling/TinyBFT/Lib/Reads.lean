import Mathlib.Data.List.Basic
import Mathlib.Tactic.Ring

/-!
# Programs that read a memory

A memory has a byte at every address. A program that reads one is a tree: it returns, or reads some
bytes from an address on and goes on with what it has read. `ranges` is what it reads in a run, and
the one fact that matters is `run_congr`: the bytes it reads decide its result and what it reads. A
program that stays `Within` a message therefore cannot tell the message from a copy of it, whatever
lies behind either.

Numbers lie in memory with the lowest byte first (`Bytes`).
-/

/-- A byte at every address. -/
abbrev Memory := Int → UInt8

namespace Memory

/-- The `len` bytes from `a` on. -/
def slice (mem : Memory) (a : Int) (len : Nat) : List UInt8 :=
  (List.range len).map fun i : Nat => mem (a + i)

/-- The memory seen from `a`. -/
def shift (mem : Memory) (a : Int) : Memory := fun x => mem (a + x)

/-- A list of bytes at 0; the bytes around it are those of `mem`. -/
def ofBytes (bs : List UInt8) (mem : Memory) : Memory :=
  fun a => if 0 ≤ a then (bs[a.toNat]?).getD (mem a) else mem a

/-- The memory after a copy of a list of bytes to `a`. -/
def write (mem : Memory) (a : Int) (bs : List UInt8) : Memory :=
  (ofBytes bs (mem.shift a)).shift (-a)

variable {mem mem' : Memory} {a b : Int} {i j len : Nat} {bs cs : List UInt8}

@[simp] theorem length_slice : (slice mem a len).length = len := by simp [slice]

@[simp] theorem slice_zero : slice mem a 0 = [] := rfl

theorem slice_append : slice mem a (i + j) = slice mem a i ++ slice mem (a + i) j := by
  simp only [slice, List.range_add, List.map_append, List.map_map]
  congr 1
  apply List.map_congr_left
  intro k _
  simp only [Function.comp]
  congr 1
  push_cast
  omega

theorem slice_congr (h : ∀ x, a ≤ x → x < a + len → mem x = mem' x) :
    slice mem a len = slice mem' a len := by
  apply List.map_congr_left
  intro i hi
  rw [List.mem_range] at hi
  exact h _ (by omega) (by omega)

theorem slice_shift : slice (mem.shift b) a len = slice mem (b + a) len := by
  apply List.map_congr_left
  intro i _
  unfold shift
  congr 1
  omega

theorem slice_ofBytes (bs : List UInt8) : slice (ofBytes bs mem) 0 bs.length = bs := by
  apply List.ext_getElem
  · simp
  · intro i h1 h2
    simp [slice, ofBytes, h2]

/-- A memory that holds a list of bytes at `a`. -/
def Holds (mem : Memory) (a : Int) (bs : List UInt8) : Prop := slice mem a bs.length = bs

instance : Decidable (Holds mem a bs) := inferInstanceAs (Decidable (_ = _))

theorem holds_append : Holds mem a (bs ++ cs) ↔ Holds mem a bs ∧ Holds mem (a + bs.length) cs := by
  unfold Holds
  rw [List.length_append, slice_append]
  constructor
  · intro h
    exact List.append_inj h (by simp)
  · rintro ⟨h1, h2⟩
    rw [h1, h2]

theorem holds_ofBytes (bs : List UInt8) (mem : Memory) : Holds (ofBytes bs mem) 0 bs :=
  slice_ofBytes bs

theorem holds_shift : Holds (mem.shift b) a bs ↔ Holds mem (b + a) bs := by
  unfold Holds
  rw [slice_shift]

theorem holds_write (mem : Memory) (a : Int) (bs : List UInt8) : Holds (write mem a bs) a bs := by
  have h := holds_ofBytes bs (mem.shift a)
  rw [← Int.add_left_neg a] at h
  exact holds_shift.2 h

/-- A copy changes no byte outside its destination. -/
theorem write_of_outside {x : Int} (h : x < a ∨ a + bs.length ≤ x) : write mem a bs x = mem x := by
  have hx : a + (-a + x) = x := by omega
  unfold write shift ofBytes
  simp only [hx]
  split
  · have : bs[(-a + x).toNat]? = none := List.getElem?_eq_none (by omega)
    rw [this, Option.getD_none]
  · rfl

theorem holds_write_of_disjoint (h : b + cs.length ≤ a ∨ a + bs.length ≤ b) :
    Holds (write mem a bs) b cs ↔ Holds mem b cs := by
  unfold Holds
  rw [slice_congr fun x h1 h2 => write_of_outside (by omega)]

/-- Two memories that hold the same bytes have the same bytes there. -/
theorem Holds.agree (h : Holds mem 0 bs) (h' : Holds mem' 0 bs) {x : Int} (h0 : 0 ≤ x)
    (hx : x < bs.length) : mem x = mem' x := by
  have heq : slice mem 0 bs.length = slice mem' 0 bs.length := Eq.trans h h'.symm
  have hi : x.toNat < bs.length := by omega
  have hx' := List.map_inj_left.1 heq x.toNat (List.mem_range.2 hi)
  rwa [Int.toNat_of_nonneg h0, Int.zero_add] at hx'

theorem Holds.slice_eq (h : Holds mem 0 bs) (h' : Holds mem' 0 bs) (h0 : 0 ≤ a)
    (hle : a + len ≤ bs.length) :
    slice mem a len = slice mem' a len :=
  slice_congr fun x h1 h2 => h.agree h' (by omega) (by omega)

end Memory

/-! ## Numbers -/

namespace Bytes

/-- The number of some bytes, the lowest one first. -/
def toNat (bs : List UInt8) : Nat := bs.foldr (fun b acc => b.toNat + 256 * acc) 0

/-- ... read in two's complement. -/
def toInt (bs : List UInt8) : Int := Int.bmod (toNat bs) (2 ^ (8 * bs.length))

/-- The lowest `len` bytes of a number. -/
def ofNat : Nat → Nat → List UInt8
  | 0, _ => []
  | len + 1, x => UInt8.ofNat x :: ofNat len (x / 256)

def ofInt (len : Nat) (x : Int) : List UInt8 := ofNat len (x % (2 ^ (8 * len) : Nat)).toNat

variable {len x : Nat} {bs : List UInt8}

@[simp] theorem length_ofNat : (ofNat len x).length = len := by
  induction len generalizing x with
  | zero => rfl
  | succ len ih => simp [ofNat, ih]

@[simp] theorem length_ofInt {x : Int} : (ofInt len x).length = len := length_ofNat

theorem toNat_ofNat : toNat (ofNat len x) = x % 2 ^ (8 * len) := by
  induction len generalizing x with
  | zero => simp [ofNat, toNat, Nat.mod_one]
  | succ len ih =>
    have hp : 2 ^ (8 * (len + 1)) = 256 * 2 ^ (8 * len) := by
      rw [Nat.mul_add, Nat.pow_add]
      ring
    have hstep : toNat (ofNat (len + 1) x) = (UInt8.ofNat x).toNat +
      256 * toNat (ofNat len (x / 256)) := rfl
    rw [hstep, ih, hp, Nat.mod_mul]
    simp

theorem toInt_ofNat (h : 2 * x < 2 ^ (8 * len)) : toInt (ofNat len x) = x := by
  unfold toInt
  rw [length_ofNat, toNat_ofNat, Nat.mod_eq_of_lt (by omega)]
  exact Int.bmod_eq_of_le_mul_two (by omega) (by omega)

/-- A number in the range of its field is read back. -/
theorem toInt_ofInt {x : Int} (h1 : -2 ^ (8 * len) ≤ 2 * x) (h2 : 2 * x < 2 ^ (8 * len)) :
    toInt (ofInt len x) = x := by
  have hp : (0 : Int) < (2 ^ (8 * len) : Nat) := Int.natCast_pos.2 (Nat.two_pow_pos _)
  have hm := Int.emod_nonneg x (b := ((2 ^ (8 * len) : Nat) : Int)) (by omega)
  have hlt := Int.emod_lt_of_pos x hp
  unfold toInt
  rw [length_ofInt, ofInt, toNat_ofNat, Nat.mod_eq_of_lt (by omega),
    Int.toNat_of_nonneg hm, Int.emod_bmod]
  have hcast : ((2 ^ (8 * len) : Nat) : Int) = 2 ^ (8 * len) := by push_cast; rfl
  exact Int.bmod_eq_of_le_mul_two (by omega) (by omega)

theorem toInt_bounds (bs : List UInt8) :
    -2 ^ (8 * bs.length) ≤ 2 * toInt bs ∧ 2 * toInt bs < 2 ^ (8 * bs.length) := by
  have hp := Nat.two_pow_pos (8 * bs.length)
  have h1 := Int.le_bmod (x := (toNat bs : Int)) hp
  have h2 := Int.bmod_lt (x := (toNat bs : Int)) hp
  have hcast : ((2 ^ (8 * bs.length) : Nat) : Int) = 2 ^ (8 * bs.length) := by push_cast; rfl
  unfold toInt
  omega

end Bytes

/-! ## Programs -/

/-- A program that reads a memory. -/
inductive Reads (α : Type) where
  | done (x : α)
  | read (a : Int) (len : Nat) (k : List UInt8 → Reads α)

namespace Reads

variable {α β : Type} {mem mem' : Memory} {lo hi : Int}

def bind (p : Reads α) (f : α → Reads β) : Reads β :=
  match p with
  | done x => f x
  | read a len k => read a len fun bs => (k bs).bind f

instance : Monad Reads where
  pure := done
  bind := bind

/-- Read some bytes. -/
def bytes (a : Int) (len : Nat) : Reads (List UInt8) := read a len done

def run (mem : Memory) : Reads α → α
  | done x => x
  | read a len k => (k (mem.slice a len)).run mem

/-- What a run reads: addresses and lengths, in order. -/
def ranges (mem : Memory) : Reads α → List (Int × Nat)
  | done _ => []
  | read a len k => (a, len) :: (k (mem.slice a len)).ranges mem

/-- A run reads only the bytes from `lo` on that are before `hi`. -/
def Within (mem : Memory) (lo hi : Int) (p : Reads α) : Prop :=
  ∀ r ∈ p.ranges mem, 0 < r.2 → lo ≤ r.1 ∧ r.1 + r.2 ≤ hi

variable {p : Reads α} {f : α → Reads β} {x : α} {a : Int} {len : Nat} {k : List UInt8 → Reads α}

@[simp] theorem run_pure : run mem (pure x) = x := rfl

@[simp] theorem run_done : run mem (done x) = x := rfl

@[simp] theorem run_bytes : run mem (bytes a len) = mem.slice a len := rfl

theorem run_bind : run mem (p >>= f) = run mem (f (run mem p)) := by
  show run mem (p.bind f) = _
  induction p with
  | done x => rfl
  | read a len k ih => exact ih _

theorem ranges_bind : ranges mem (p >>= f) = ranges mem p ++ ranges mem (f (run mem p)) := by
  show ranges mem (p.bind f) = _
  induction p with
  | done x => rfl
  | read a len k ih => exact congrArg ((a, len) :: ·) (ih _)

@[simp] theorem within_pure : Within mem lo hi (pure x) := fun _ h => by cases h

@[simp] theorem within_done : Within mem lo hi (done x) := fun _ h => by cases h

@[simp] theorem within_bytes :
    Within mem lo hi (bytes a len) ↔ (0 < len → lo ≤ a ∧ a + len ≤ hi) := by
  simp [Within, bytes, ranges]

theorem within_bind :
    Within mem lo hi (p >>= f) ↔ Within mem lo hi p ∧ Within mem lo hi (f (run mem p)) := by
  unfold Within
  rw [ranges_bind]
  exact List.forall_mem_append

/-- The bytes that are read go into what follows at once. -/
@[simp] theorem run_bytes_bind {f : List UInt8 → Reads β} :
    run mem (bytes a len >>= f) = run mem (f (mem.slice a len)) := run_bind

@[simp] theorem within_bytes_bind {f : List UInt8 → Reads β} :
    Within mem lo hi (bytes a len >>= f) ↔ (0 < len → lo ≤ a ∧ a + len ≤ hi) ∧
      Within mem lo hi (f (mem.slice a len)) := by
  rw [within_bind, within_bytes, run_bytes]

theorem within_ite {c : Prop} [Decidable c] {q : Reads α} :
    Within mem lo hi (if c then p else q) ↔ (c → Within mem lo hi p) ∧
      (¬ c → Within mem lo hi q) := by
  split <;> simp [*]

/-- **The bytes that a program reads decide its run.** -/
theorem run_congr (h : Within mem lo hi p) (heq : ∀ a, lo ≤ a → a < hi → mem a = mem' a) :
    p.run mem = p.run mem' ∧ p.ranges mem = p.ranges mem' := by
  induction p with
  | done x => exact ⟨rfl, rfl⟩
  | read a len k ih =>
    have hs : mem.slice a len = mem'.slice a len := by
      by_cases hpos : 0 < len
      · have hr := h (a, len) List.mem_cons_self hpos
        exact Memory.slice_congr fun x h1 h2 => heq x (hr.1.trans h1) (lt_of_lt_of_le h2 hr.2)
      · rw [Nat.eq_zero_of_not_pos hpos]
        rfl
    obtain ⟨h1, h2⟩ := ih (mem.slice a len) fun r hr => h r (List.mem_cons_of_mem _ hr)
    rw [hs] at h1 h2
    exact ⟨by rw [run, run, hs]; exact h1, by rw [ranges, ranges, hs]; exact congrArg _ h2⟩

instance [DecidableEq α] : Decidable (Within mem lo hi p) :=
  inferInstanceAs (Decidable (∀ r ∈ p.ranges mem, 0 < r.2 → lo ≤ r.1 ∧ r.1 + r.2 ≤ hi))

end Reads
