import Mathlib.Algebra.Order.Ring.Int

/-!
# Types and compile-time parameters (`types.h`, `parameters.h`, `Message.h`)

| here | there |
| --- | --- |
| `Int`                 | `typedef Long Seqno; typedef Seqno View;` (`types.h:26-27`), 64-bit signed; `-1` marks "no view" |
| `Params`              | the constants of `parameters.h:4-18`, and `MAX_MESSAGE_SIZE` (`Message.h:18`) |
| `Params.viewChange_fits` | the `static_assert` on `max_view_change_size` (`View_change.h:70-74`) |
| `Params.maxOut`       | `max_out` (`parameters.h:36`) |
| `Params.ckptInterval` | `checkpoint_interval` (`parameters.h:27`) |
| `Params.regionF`      | `F = MAX_NUM_REPLICAS / 3` (`Message.h:26`), the static regions' bound on `f` |
| `Params.authenticatorSize` | `AUTHENTICATOR_SIZE` (`Message.h:32`), one 32-byte MAC for every other replica |
| `Params.maxNewViewSize` | `max_new_view_size` (`New_view.h:53-55`) |
| `alignedSize`         | `ALIGNED_SIZE` (`Log_allocator.h:28`) |
| `toInt`               | a 64-bit value assigned to an `int` |
| `unsigned64`          | a value converted to `size_t` |

The window size and the checkpoint interval are build options (`CMakeLists.txt`), so every result is
stated for arbitrary ones. Sums of sequence numbers are exact: only the places where the code
narrows a 64-bit value to an `int` wrap (`toInt`).
-/

namespace TinyBFT

/-- The build options that the protocol code depends on. -/
structure Params where
  maxOut : Nat
  ckptInterval : Nat
  maxNumReplicas : Nat
  maxMessageSize : Nat
  maxOut_pos : 0 < maxOut
  /-- `static_assert(checkpoint_interval > 0)` (`parameters.h:28`). -/
  ckptInterval_pos : 0 < ckptInterval
  /-- `static_assert(max_view_change_size <= MAX_MESSAGE_SIZE)` (`View_change.h:73`): the header, a
  digest for each checkpoint, the bitmap, 48 bytes for each request and an authenticator. -/
  viewChange_fits : 64 + 32 * (maxOut / ckptInterval + 1) + 8 * ((maxOut + 63) / 64) + 48 * maxOut +
    32 * (maxNumReplicas - 1) ≤ maxMessageSize
  /-- A message is one UDP datagram. -/
  maxMessageSize_le : maxMessageSize ≤ 65507

/-- `F` (`Message.h:26`). -/
def Params.regionF (P : Params) : Nat := P.maxNumReplicas / 3

/-- `AUTHENTICATOR_SIZE` without `PKEY` (`Message.h:32`). -/
def Params.authenticatorSize (P : Params) : Nat := 32 * (P.maxNumReplicas - 1)

/-- `max_new_view_size`: a header, a digest and a code for each replica, and a pick for each
sequence number of the window. -/
def Params.maxNewViewSize (P : Params) : Nat :=
  32 + P.maxNumReplicas * 32 + P.maxOut + P.authenticatorSize

/-- The default window and checkpoint interval. They do not fit the default message size of 9000
(`viewChange_fits`), so a build has to set `MAX_MESSAGE_SIZE` too. -/
def Params.default : Params where
  maxOut := 256
  ckptInterval := 128
  maxNumReplicas := 32
  maxMessageSize := 16384
  maxOut_pos := by decide
  ckptInterval_pos := by decide
  viewChange_fits := by decide
  maxMessageSize_le := by decide

/-- The window is small enough for the `int` and `short` fields that count its sequence numbers. -/
theorem Params.maxOut_lt (P : Params) : P.maxOut < 2 ^ 15 := by
  have h1 := P.viewChange_fits
  have h2 := P.maxMessageSize_le
  omega

/-- `Seqno_max` (`types.h:35`). -/
def seqnoMax : Int := 2 ^ 63 - 1

/-- Conversion of a 64-bit value to `int` (32 bits, two's complement). -/
def toInt (x : Int) : Int := Int.bmod x (2 ^ 32)

theorem toInt_cases (x : Int) :
    toInt x = x % 2 ^ 32 ∧ x % 2 ^ 32 < 2 ^ 31 ∨ toInt x = x % 2 ^ 32 - 2 ^ 32 ∧
      2 ^ 31 ≤ x % 2 ^ 32 := by
  unfold toInt
  rw [Int.bmod_def]
  split <;> omega

theorem toInt_eq_self {x : Int} (h1 : -2 ^ 31 ≤ x) (h2 : x < 2 ^ 31) : toInt x = x := by
  have := toInt_cases x
  omega

theorem toInt_le {x : Int} (h : 0 ≤ x) : toInt x ≤ x := by
  have := toInt_cases x
  omega

theorem toInt_toInt (x : Int) : toInt (toInt x) = toInt x := by
  unfold toInt
  exact Int.bmod_bmod

theorem toInt_lt (x : Int) : toInt x < 2 ^ 31 := by
  have := toInt_cases x
  omega

theorem le_toInt (x : Int) : -2 ^ 31 ≤ toInt x := by
  have := toInt_cases x
  omega

/-- The next multiple of 8. -/
def alignedSize (n : Nat) : Nat := (n + 7) / 8 * 8

theorem alignedSize_mod (n : Nat) : alignedSize n % 8 = 0 := Nat.mul_mod_left _ _

theorem le_alignedSize (n : Nat) : n ≤ alignedSize n := by
  unfold alignedSize
  omega

theorem alignedSize_lt (n : Nat) : alignedSize n < n + 8 := by
  unfold alignedSize
  omega

/-- Conversion to `size_t`. -/
def unsigned64 (x : Int) : Nat := (x % 2 ^ 64).toNat

theorem unsigned64_of_nonneg {x : Int} (h0 : 0 ≤ x) (h : x < 2 ^ 64) :
    (unsigned64 x : Int) = x := by
  unfold unsigned64
  omega

theorem unsigned64_of_neg {x : Int} (h0 : -2 ^ 64 ≤ x) (h : x < 0) :
    (unsigned64 x : Int) = x + 2 ^ 64 := by
  unfold unsigned64
  omega

end TinyBFT
