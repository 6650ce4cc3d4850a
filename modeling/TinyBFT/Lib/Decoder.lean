import TinyBFT.Lib.Reads
import Mathlib.Data.Nat.Bitwise

/-!
# Decoders

A decoder takes bytes off the front of a stream. It gives a value, or the program stops, or the
decoder refuses what it reads. `Gives d bs x` says that `d` takes `bs` off, whatever follows, and
gives `x`; `Faults d bs e` that it ends with `e`.
-/

inductive Fault where
  | stops
  | refused
deriving DecidableEq, Repr

abbrev Decoder (α : Type) : Type := StateT (List UInt8) (Except Fault) α

namespace Decoder

variable {α β : Type}

def fault (e : Fault) : Decoder α := fun _ => .error e

def take (n : Nat) : Decoder (List UInt8) :=
  fun s => if n ≤ s.length then .ok (s.take n, s.drop n) else .error .refused

/-- A signed number of `len` bytes. -/
def int (len : Nat) : Decoder Int := do
  let bs ← take len
  return Bytes.toInt bs

def nat (len : Nat) : Decoder Nat := do
  let bs ← take len
  return Bytes.toNat bs

def Gives (d : Decoder α) (bs : List UInt8) (x : α) : Prop := ∀ rest, d (bs ++ rest) = .ok (x, rest)

def Faults (d : Decoder α) (bs : List UInt8) (e : Fault) : Prop := ∀ rest, d (bs ++ rest) = .error e

variable {d : Decoder α} {f : α → Decoder β} {bs cs : List UInt8} {x : α} {y : β}
    {e : Fault} {len n : Nat}

theorem gives_pure : Gives (pure x : Decoder α) [] x := fun _ => rfl

theorem Gives.bind (h : Gives d bs x) (hf : Gives (f x) cs y) : Gives (d >>= f) (bs ++ cs) y := by
  intro rest
  rw [List.append_assoc]
  show (d (bs ++ (cs ++ rest)) >>= fun p => f p.1 p.2) = _
  rw [h]
  exact hf rest

theorem Gives.bind_faults (h : Gives d bs x) (hf : Faults (f x) cs e) :
    Faults (d >>= f) (bs ++ cs) e := by
  intro rest
  rw [List.append_assoc]
  show (d (bs ++ (cs ++ rest)) >>= fun p => f p.1 p.2) = _
  rw [h]
  exact hf rest

/-- The last thing that is read. -/
theorem Gives.last (h : Gives d bs x) (hf : Gives (f x) [] y) : Gives (d >>= f) bs y := by
  have := h.bind hf
  rwa [List.append_nil] at this

theorem Faults.bind (h : Faults d bs e) (cs : List UInt8) : Faults (d >>= f) (bs ++ cs) e := by
  intro rest
  rw [List.append_assoc]
  show (d (bs ++ (cs ++ rest)) >>= fun p => f p.1 p.2) = _
  rw [h]
  rfl

theorem faults_fault : Faults (fault e : Decoder α) bs e := fun _ => rfl

/-- A decoder gives one thing. -/
theorem Gives.unique {x' : α} (h : Gives d bs x) (h' : Gives d bs x') : x = x' := by
  have := (h []).symm.trans (h' [])
  exact (Prod.mk.inj (Except.ok.inj this)).1

theorem Gives.not_faults (h : Gives d bs x) : ¬Faults d bs e := by
  intro h'
  have := (h []).symm.trans (h' [])
  cases this

theorem gives_take (h : bs.length = n) : Gives (take n) bs bs := by
  subst h
  intro rest
  simp [take]

/-- A number in the range of its field is read back. -/
theorem gives_int {z : Int} (h1 : -2 ^ (8 * len) ≤ 2 * z) (h2 : 2 * z < 2 ^ (8 * len)) :
    Gives (int len) (Bytes.ofInt len z) z := by
  have h : Gives (int len) (Bytes.ofInt len z) (Bytes.toInt (Bytes.ofInt len z)) :=
    (gives_take Bytes.length_ofInt).last gives_pure
  rwa [Bytes.toInt_ofInt h1 h2] at h

theorem gives_nat (h : n < 2 ^ (8 * len)) : Gives (nat len) (Bytes.ofNat len n) n := by
  have h' : Gives (nat len) (Bytes.ofNat len n) (Bytes.toNat (Bytes.ofNat len n)) :=
    (gives_take Bytes.length_ofNat).last gives_pure
  rwa [Bytes.toNat_ofNat, Nat.mod_eq_of_lt h] at h'

end Decoder

namespace Bytes

/-- The bits of a number lie in its bytes. -/
theorem testBit_toNat (bs : List UInt8) (i : Nat) :
    (toNat bs).testBit i = (bs.getD (i / 8) 0).toNat.testBit (i % 8) := by
  induction bs generalizing i with
  | nil => simp [toNat]
  | cons b bs ih =>
    have hsplit : toNat (b :: bs) = 2 ^ 8 * toNat bs + b.toNat := by
      show b.toNat + 256 * toNat bs = _
      ring
    rw [hsplit, Nat.testBit_two_pow_mul_add _ b.toNat_lt]
    split
    · rename_i hi
      rw [Nat.div_eq_of_lt hi, Nat.mod_eq_of_lt hi]
      rfl
    · rename_i hi
      obtain ⟨j, rfl⟩ : ∃ j, i = j + 8 := ⟨i - 8, by omega⟩
      rw [Nat.add_sub_cancel, ih, Nat.add_div_right _ (by decide), Nat.add_mod_right]
      rfl

theorem testBit_ofNat_div {x m t : Nat} (ht : t < 8) :
    (UInt8.ofNat (x / 256 ^ m)).toNat.testBit t = x.testBit (8 * m + t) := by
  have hpow : 256 ^ m = 2 ^ (8 * m) := by rw [pow_mul]; norm_num
  rw [hpow, UInt8.toNat_ofNat', Nat.testBit_mod_two_pow, Nat.testBit_div_two_pow]
  simp [ht, Nat.add_comm]

end Bytes
