import TinyBFT.PartitionTree
import TinyBFT.Lib.Run
import Mathlib.Data.Nat.Size
import Mathlib.Data.Int.ModEq
import Mathlib.Algebra.BigOperators.Group.List.Basic

/-!
# Sums of digests modulo a large integer (`dsum.{h,cc}`)

| here | there |
| --- | --- |
| an integer | `mbedtls_mpi`, a number of any length with a sign |
| `mpiSize`  | `mbedtls_mpi_size`, the bytes of the absolute value |
| `add`, `sub` | `DSum::add`, `DSum::sub` (`dsum.cc:19-52`); `none` where an assertion fails |
| `stateModulus` | the modulus that `State` hands to `DSum::init` (`State.cc:464-468`) |
| `Op`, `step` | a call on one sum |
| `sumBytes` | `mbedtls_mpi_write_binary` of a sum into `nbytes` bytes |

Each operation corrects by the modulus once. That is a full reduction as long as what is added or
taken away is below the modulus, since the sum then leaves `[0, M)` by less than `M`.
-/

namespace TinyBFT

namespace DSum

def nbits : Nat := 512

def nbytes : Nat := 64

def mpiSize (x : Int) : Nat := (x.natAbs.size + 7) / 8

def stateModulus : Int :=
  0xDF8A46D4E777C4B3090A3389839E4F8653C4B6CFFFEA2A8D81DEDF1149D11D558C54BFB676FCFE28BCC07ABA057CAB9F

def add (M sum : Int) (d : Digest) : Option Int :=
  let sum := sum + d.value
  let sum := if M ≤ sum then sum - M else sum
  if mpiSize sum ≤ nbytes then some sum else none

def sub (M sum : Int) (d : Digest) : Option Int :=
  let sum := if sum < d.value then sum + M else sum
  let sum := sum - d.value
  if -1 < sum then some sum else none

inductive Op where
  | add (d : Digest)
  | sub (d : Digest)

def step (M sum : Int) : Op → Option Int
  | .add d => add M sum d
  | .sub d => sub M sum d

/-- What an operation does to the sum over the integers. -/
def Op.delta : Op → Int
  | .add d => d.value
  | .sub d => -d.value

/-- The integer combination of the digests. -/
def combination (ops : List Op) : Int := (ops.map Op.delta).sum

variable {M s : Int} {d : Digest}

/-! ## The size of a sum -/

theorem mpiSize_le_iff (x : Int) (n : Nat) : mpiSize x ≤ n ↔ x.natAbs < 256 ^ n := by
  have hbits : mpiSize x ≤ n ↔ x.natAbs.size ≤ 8 * n := by
    unfold mpiSize
    omega
  rw [hbits, Nat.size_le, pow_mul]
  norm_num

theorem mpiSize_le (hfit : M ≤ 2 ^ nbits) (h0 : 0 ≤ s) (hs : s < M) : mpiSize s ≤ nbytes := by
  rw [mpiSize_le_iff]
  have hpow : ((256 ^ nbytes : Nat) : Int) = 2 ^ nbits := by
    rw [Nat.cast_pow, show nbits = 8 * nbytes from rfl, pow_mul]
    norm_num
  have : s < ((256 ^ nbytes : Nat) : Int) := by
    rw [hpow]
    exact lt_of_lt_of_le hs hfit
  generalize 256 ^ nbytes = b at this
  omega

/-- What `mbedtls_mpi_write_binary` leaves is the number, the first byte being the most significant
one. -/
theorem foldl_bytes (n k a : Nat) :
    ((List.range k).map fun j => UInt8.ofNat (n / 256 ^ (k - (j + 1)))).foldl
      (fun acc b => acc * 256 + b.toNat) a =
      a * 256 ^ k + n % 256 ^ k := by
  induction k generalizing a with
  | zero => simp [Nat.mod_one]
  | succ k ih =>
    have hbyte : (UInt8.ofNat (n / 256 ^ k)).toNat = n / 256 ^ k % 256 := by simp
    rw [List.range_succ_eq_map, List.map_cons, List.map_map, List.foldl_cons]
    simp only [Function.comp_def, Nat.succ_eq_add_one, Nat.add_sub_add_right, Nat.sub_zero]
    rw [ih, hbyte, pow_succ, Nat.mod_mul]
    ring

theorem foldl_sumBytes {n : Nat} (hn : n < 256 ^ nbytes) :
    (sumBytes n).foldl (fun acc b => acc * 256 + b.toNat) 0 = n := by
  have := foldl_bytes n nbytes 0
  rw [Nat.mod_eq_of_lt hn, Nat.zero_mul, Nat.zero_add] at this
  simpa [sumBytes, nbytes] using this

/-! ## One operation -/

/-- The two ways out of `[0, M)`, and the correction for each. -/
theorem step_eq (hM : ∀ d : Digest, (d.value : Int) < M) (hfit : M ≤ 2 ^ nbits) (h0 : 0 ≤ s)
    (hs : s < M) (op : Op) :
    step M s op = some ((s + op.delta) % M) := by
  cases op with
  | add d =>
    have hd := hM d
    have hmod : (if M ≤ s + d.value then s + d.value - M else s + d.value) = (s + d.value) % M := by
      split
      · rw [← Int.sub_emod_right, Int.emod_eq_of_lt (by omega) (by omega)]
      · rw [Int.emod_eq_of_lt (by omega) (by omega)]
    have hpos : 0 < M := by omega
    simp only [step, add, Op.delta, hmod]
    rw [if_pos (mpiSize_le hfit (Int.emod_nonneg _ hpos.ne') (Int.emod_lt_of_pos _ hpos))]
  | sub d =>
    have hd := hM d
    have hmod : (if s < d.value then s + M else s) - d.value = (s + -d.value) % M := by
      split
      · rw [← Int.add_emod_right, Int.emod_eq_of_lt (by omega) (by omega)]
        ring
      · rw [Int.emod_eq_of_lt (by omega) (by omega)]
        ring
    have hpos : 0 < M := by omega
    have := Int.emod_nonneg (s + -d.value) hpos.ne'
    simp only [step, sub, Op.delta, hmod]
    rw [if_pos (by omega)]

/-- `addMod` and `subMod`, which the tree of digests is computed with, are `add` and `sub` on
reduced sums. -/
theorem add_eq_addMod {m s : Nat} (hm : (m : Int) ≤ 2 ^ nbits) (hd : d.value < m) (hs : s < m) :
    add m s d = some ((addMod m s d.value : Nat) : Int) := by
  have hmod : (if (m : Int) ≤ s + d.value then (s + d.value - m : Int) else s + d.value) =
    (addMod m s d.value : Nat) := by
    unfold addMod
    split <;> split <;> omega
  have hlt : addMod m s d.value < m := by
    unfold addMod
    split <;> omega
  simp only [add, hmod]
  rw [if_pos (mpiSize_le hm (by omega) (by omega))]

theorem sub_eq_subMod {m s : Nat} (hd : d.value < m) :
    sub m s d = some ((subMod m s d.value : Nat) : Int) := by
  have hmod : (if (s : Int) < d.value then (s + m : Int) else s) -
    d.value = (subMod m s d.value : Nat) := by
    unfold subMod
    split <;> split <;> omega
  simp only [sub, hmod]
  rw [if_pos (by omega)]

/-! ## Any number of operations -/

theorem combination_perm {ops ops' : List Op} (h : ops.Perm ops') :
    combination ops = combination ops' :=
  (h.map Op.delta).sum_eq

theorem run_eq (hM : ∀ d : Digest, (d.value : Int) < M) (hfit : M ≤ 2 ^ nbits) (h0 : 0 ≤ s)
    (hs : s < M) (ops : List Op) :
    Run.run (step M) s ops = some ((s + combination ops) % M) := by
  have hpos : 0 < M := by omega
  induction ops generalizing s with
  | nil => simp [combination, Int.emod_eq_of_lt h0 hs]
  | cons op ops ih =>
    rw [Run.run, step_eq hM hfit h0 hs op, Option.bind_some,
      ih (Int.emod_nonneg _ hpos.ne') (Int.emod_lt_of_pos _ hpos), Int.emod_add_emod]
    simp [combination, add_assoc]

/-- **The sum is the normal form of the combination.** Any operations from zero go through, and what
they leave is the integer combination of the digests reduced modulo `M`: it depends on nothing else,
so not on the order, an `add` and a `sub` of the same digest cancel, and the bytes that the sum is
written to determine it. -/
theorem run_normal_form (hM : ∀ d : Digest, (d.value : Int) < M) (hfit : M ≤ 2 ^ nbits)
    (ops : List Op) :
    ∃ s, Run.run (step M) 0 ops = some s ∧ 0 ≤ s ∧ s < M ∧ s = combination ops % M ∧
      (∀ ops', Run.run (step M) 0 ops' = some s ↔ combination ops' ≡ combination ops [ZMOD M]) ∧
      (∀ ops', ops'.Perm ops → Run.run (step M) 0 ops' = some s) ∧
      (∀ d, (add M s d).bind (sub M · d) = some s ∧ (sub M s d).bind (add M · d) = some s) ∧
      mpiSize s ≤ nbytes ∧
        ((sumBytes s.toNat).foldl (fun acc b => acc * 256 + b.toNat) 0 : Nat) = s := by
  have hpos : 0 < M := lt_of_le_of_lt (Int.natCast_nonneg _) (hM 0)
  have hrun : ∀ ops, Run.run (step M) 0 ops = some (combination ops % M) := fun ops => by
    rw [run_eq hM hfit le_rfl hpos, zero_add]
  have h0 : 0 ≤ combination ops % M := Int.emod_nonneg _ hpos.ne'
  have hs : combination ops % M < M := Int.emod_lt_of_pos _ hpos
  have hsize := mpiSize_le hfit h0 hs
  have hundo : ∀ op op' : Op, op.delta + op'.delta = 0 →
      Run.run (step M) (combination ops % M) [op, op'] = some (combination ops % M) := by
    intro op op' hzero
    have hzero' : combination [op, op'] = 0 := by simpa [combination] using hzero
    rw [run_eq hM hfit h0 hs, hzero', add_zero, Int.emod_eq_of_lt h0 hs]
  refine ⟨_, hrun ops, h0, hs, rfl, fun ops' => ?_,
    fun ops' hperm => ?_, fun d => ⟨?_, ?_⟩, hsize, ?_⟩
  · rw [hrun ops', Option.some_inj]
    rfl
  · rw [hrun ops', combination_perm hperm]
  · have := hundo (.add d) (.sub d) (by simp [Op.delta])
    simpa [Run.run, step] using this
  · have := hundo (.sub d) (.add d) (by simp [Op.delta])
    simpa [Run.run, step] using this
  · have hlt : (combination ops % M).toNat < 256 ^ nbytes := by
      have := (mpiSize_le_iff _ _).1 hsize
      rwa [← Int.toNat_of_nonneg h0, Int.natAbs_natCast] at this
    rw [foldl_sumBytes hlt, Int.toNat_of_nonneg h0]

/-- The modulus of `State`: of 384 bits, the highest of them set. -/
theorem value_lt_stateModulus (d : Digest) : (d.value : Int) < stateModulus :=
  lt_trans (Int.ofNat_lt.2 (Tree.value_lt d)) (by norm_num [stateModulus])

theorem stateModulus_le : stateModulus ≤ 2 ^ nbits :=
  calc stateModulus ≤ 2 ^ 192 * 2 ^ 192 := by norm_num [stateModulus]
    _ = 2 ^ 384 := (pow_add 2 192 192).symm
    _ ≤ 2 ^ nbits := pow_le_pow_right₀ (by decide) (by decide)

theorem run_normal_form_state :
    ∃ s, Run.run (step stateModulus) 0 [.sub 1#256, .add 2#256] = some s ∧
    s = combination [.sub 1#256, .add 2#256] % stateModulus := by
  obtain ⟨s, hrun, -, -, hs, -⟩ :=
    run_normal_form value_lt_stateModulus stateModulus_le [.sub 1#256, .add 2#256]
  exact ⟨s, hrun, hs⟩

end DSum

end TinyBFT
