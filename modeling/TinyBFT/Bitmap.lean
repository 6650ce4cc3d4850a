import TinyBFT.Basic
import Mathlib.Data.BitVec

/-!
# `Bitmap` (`Bitmap.h`) and its iterator

| here | there |
| --- | --- |
| `Chunk`      | `Chunk`, 64 bits (`Bitmap.h:12-13`) |
| `Bitmap`     | `num` and `chunks[0 .. nc)` (`Bitmap.h:116-118`) |
| `blank`, `test`, `set` | the constructor, `test` and `set` (`Bitmap.h:123-131`, `:164-190`) |
| `ignoreValue`, `pass`, `Gets` | `Iter::Iter`, a pass of the loop of `get`, and the loop (`Bitmap.h:239-257`) |
| `Yields`     | `while (iter.get(i)) …`, as in `State::rollback` (`State.cc:762-764`) |

`index` is an `unsigned int`, and the skip over a chunk is not checked: behind the last chunk of a
bitmap of more than `2^32 - 64` bits it begins again at 0 (`iter_exact_iff`).
-/

namespace TinyBFT

abbrev Chunk := BitVec 64

structure Bitmap where
  num : Nat
  chunks : List Chunk
  num_lt : num < 2 ^ 32
  fits : num ≤ 64 * chunks.length

namespace Bitmap

/-- `bitSelector`. -/
def bitSelector (i : Nat) : Chunk := 1#64 <<< (i % 64)

def chunk (b : Bitmap) (i : Nat) : Chunk := b.chunks.getD (i / 64) 0

def test (b : Bitmap) (i : Nat) : Bool := b.chunk i &&& bitSelector i != 0

/-- `Bitmap(num)`. -/
def blank (num : Nat) (hnum : num < 2 ^ 32) : Bitmap where
  num := num
  chunks := List.replicate ((num + 63) / 64) 0
  num_lt := hnum
  fits := by
    rw [List.length_replicate]
    omega

def set (b : Bitmap) (i : Nat) : Bitmap where
  num := b.num
  chunks := b.chunks.modify (i / 64) (· ||| bitSelector i)
  num_lt := b.num_lt
  fits := by
    rw [List.length_modify]
    exact b.fits

/-- The chunk that no iterator for `v` stops in. -/
def ignoreValue (v : Bool) : Chunk := if v then 0 else BitVec.allOnes 64

/-- A pass of the loop of `get`: it returns, with the index that it yields or without one, or goes
on; and the new `index`. -/
def pass (b : Bitmap) (v : Bool) (index : Nat) : Option (Option Nat) × Nat :=
  if b.num ≤ index then (some none, index)
  else if b.chunk index = ignoreValue v then (none, (index + 64) % 2 ^ 32)
  else if b.test index = v then (some (some index), (index + 1) % 2 ^ 32)
  else (none, (index + 1) % 2 ^ 32)

/-- `get`, from `index`: it returns `r`, and leaves another `index`. -/
inductive Gets (b : Bitmap) (v : Bool) : Nat → Option Nat → Nat → Prop
  | now {i j : Nat} {r : Option Nat} (h : b.pass v i = (some r, j)) : Gets b v i r j
  | later {i j k : Nat} {r : Option Nat} (h : b.pass v i = (none, k)) (ht : Gets b v k r j) :
    Gets b v i r j

/-- Calls of `get` until it returns `false` yield `l`. -/
inductive Yields (b : Bitmap) (v : Bool) : Nat → List Nat → Prop
  | done {i j : Nat} (h : Gets b v i none j) : Yields b v i []
  | next {i j x : Nat} {l : List Nat} (h : Gets b v i (some x) j) (ht : Yields b v j l) :
    Yields b v i (x :: l)

variable {b : Bitmap} {v : Bool} {i j k : Nat} {l : List Nat}

theorem test_eq (b : Bitmap) (i : Nat) : b.test i = (b.chunk i).getLsbD (i % 64) := by
  have hi : i % 64 < 64 := Nat.mod_lt _ (by decide)
  unfold test bitSelector
  rw [Bool.eq_iff_iff, bne_iff_ne, ne_eq]
  constructor
  · intro h
    by_contra hb
    refine h (BitVec.eq_of_getLsbD_eq fun k hk => ?_)
    by_cases he : k = i % 64
    · simp [he, hb]
    · have : ¬(k - i % 64 = 0 ∧ i % 64 ≤ k) := by omega
      simp [BitVec.getLsbD_one]
      omega
  · intro hb h
    have hbit := congrArg (fun x => x.getLsbD (i % 64)) h
    simp only [BitVec.getLsbD_and, hb] at hbit
    simp [hi] at hbit

theorem test_blank {num : Nat} (hnum : num < 2 ^ 32) (i : Nat) :
    (blank num hnum).test i = false := by
  have hc : (blank num hnum).chunk i = 0 := by
    unfold chunk blank
    rw [List.getD_eq_getElem?_getD, List.getElem?_replicate]
    split <;> rfl
  rw [test_eq, hc]
  simp

theorem test_set (h : i < b.num) (j : Nat) : (b.set i).test j = (decide (i = j) || b.test j) := by
  have hlt : i / 64 < b.chunks.length := by
    have := b.fits
    omega
  have hi : i % 64 < 64 := Nat.mod_lt _ (by decide)
  rw [test_eq, test_eq]
  by_cases hc : j / 64 = i / 64
  · have hchunk : (b.set i).chunk j = b.chunk j ||| bitSelector i := by
      unfold chunk set
      simp only [List.getD_eq_getElem?_getD, List.getElem?_modify, hc]
      simp [List.getElem?_eq_getElem hlt]
    rw [hchunk, BitVec.getLsbD_or, Bool.or_comm]
    congr 1
    by_cases he : i = j
    · subst he
      simp [bitSelector, hi]
    · have hj : j % 64 < 64 := Nat.mod_lt _ (by decide)
      have : ¬(i % 64 ≤ j % 64 ∧ j % 64 - i % 64 = 0) := by omega
      simp [bitSelector, BitVec.getLsbD_one, he]
      omega
  · have hchunk : (b.set i).chunk j = b.chunk j := by
      unfold chunk set
      simp only [List.getD_eq_getElem?_getD, List.getElem?_modify, if_neg (Ne.symm hc)]
      simp
    have hne : ¬i = j := by
      rintro rfl
      exact hc rfl
    simp [hchunk, hne]

/-- No bit of an ignored chunk is looked for. -/
theorem test_ignored (h : b.chunk i = ignoreValue v) : b.test i ≠ v := by
  have hi : i % 64 < 64 := Nat.mod_lt _ (by decide)
  rw [test_eq, h]
  cases v with
  | false =>
    simp only [ignoreValue, Bool.false_eq_true, if_false, BitVec.getLsbD_allOnes, hi, decide_true]
    exact nofun
  | true => simp [ignoreValue]

theorem chunk_congr (h : i / 64 = j / 64) : b.chunk i = b.chunk j := by rw [chunk, chunk, h]

/-! ## The indices from `i` on -/

/-- What the iterator is to yield from `i` on. -/
def rest (b : Bitmap) (v : Bool) (i : Nat) : List Nat :=
  (List.range' i (b.num - i)).filter fun j => b.test j == v

theorem rest_of_le (h : b.num ≤ i) : b.rest v i = [] := by
  simp [rest, Nat.sub_eq_zero_of_le h]

theorem rest_hit (h : i < b.num) (ht : b.test i = v) : b.rest v i = i :: b.rest v (i + 1) := by
  obtain ⟨n, hn⟩ : ∃ n, b.num - i = n + 1 := ⟨b.num - i - 1, by omega⟩
  have hn' : b.num - (i + 1) = n := by omega
  simp [rest, hn, hn', List.range'_succ, ht]

theorem rest_miss (h : i < b.num) (ht : b.test i ≠ v) : b.rest v i = b.rest v (i + 1) := by
  obtain ⟨n, hn⟩ : ∃ n, b.num - i = n + 1 := ⟨b.num - i - 1, by omega⟩
  have hn' : b.num - (i + 1) = n := by omega
  simp [rest, hn, hn', List.range'_succ, ht]

/-- Nothing is left out where a chunk is skipped. -/
theorem rest_skip (hi : i % 64 = 0) (hc : b.chunk i = ignoreValue v) :
    b.rest v i = b.rest v (i + 64) := by
  have hstep : ∀ n, n ≤ 64 → b.rest v i = b.rest v (i + n) := by
    intro n
    induction n with
    | zero => exact fun _ => rfl
    | succ n ih =>
      intro hn
      rw [ih (by omega)]
      by_cases hlt : i + n < b.num
      · refine rest_miss hlt (test_ignored ?_)
        rw [← hc]
        exact chunk_congr (by omega)
      · rw [rest_of_le (by omega), rest_of_le (by omega)]
  exact hstep 64 le_rfl

theorem mem_rest : j ∈ b.rest v i ↔ i ≤ j ∧ j < b.num ∧ b.test j = v := by
  simp only [rest, List.mem_filter, List.mem_range'_1, beq_iff_eq]
  constructor
  · rintro ⟨⟨h1, h2⟩, h3⟩
    exact ⟨h1, by omega, h3⟩
  · rintro ⟨h1, h2, h3⟩
    exact ⟨⟨h1, by omega⟩, h3⟩

theorem rest_sorted (b : Bitmap) (v : Bool) (i : Nat) : (b.rest v i).Pairwise (· < ·) :=
  List.Pairwise.filter _ List.pairwise_lt_range'

/-! ## Calls of `get` -/

/-- A pass that goes on changes nothing of what is yielded. -/
theorem Yields.later (h : b.pass v i = (none, k)) (ht : Yields b v k l) : Yields b v i l := by
  cases ht with
  | done hg => exact .done (.later h hg)
  | next hg ht => exact .next (.later h hg) ht

/-- Where an iterator is: in a chunk that it skips, only at its beginning. -/
def Between (b : Bitmap) (v : Bool) (i : Nat) : Prop := i % 64 ≠ 0 → b.chunk i ≠ ignoreValue v

/-- The chunk behind which the index does not fit an `unsigned int` is not skipped. -/
def Ends (b : Bitmap) (v : Bool) : Prop := b.num ≤ 2 ^ 32 - 64 ∨ b.chunk (b.num - 1) ≠ ignoreValue v

instance (b : Bitmap) (v : Bool) : Decidable (b.Ends v) := inferInstanceAs (Decidable (_ ∨ _))

theorem Between.succ (hc : b.chunk i ≠ ignoreValue v) : b.Between v (i + 1) := fun hi => by
  rw [← chunk_congr (i := i) (by omega)]
  exact hc

theorem yields_rest (hb : b.Ends v) (i : Nat) (hi : b.Between v i) : Yields b v i (b.rest v i) := by
  have hnum := b.num_lt
  induction hn : b.num - i using Nat.strong_induction_on generalizing i with
  | _ n ih =>
    by_cases hend : b.num ≤ i
    · rw [rest_of_le hend]
      exact .done (.now (by rw [pass, if_pos hend]))
    have hlt : (i + 1) % 2 ^ 32 = i + 1 := Nat.mod_eq_of_lt (by omega)
    by_cases hc : b.chunk i = ignoreValue v
    · -- the iterator is at the beginning of the chunk
      have h0 : i % 64 = 0 := by
        by_contra h0
        exact hi h0 hc
      have hfits : i + 64 < 2 ^ 32 := by
        rcases hb with hb | hb
        · omega
        · by_contra hge
          refine hb ?_
          rw [← hc]
          exact chunk_congr (by omega)
      rw [rest_skip h0 hc]
      refine .later (k := i + 64) ?_ (ih _ (by omega) (i + 64) (fun h => absurd h (by omega)) rfl)
      rw [pass, if_neg hend, if_pos hc, Nat.mod_eq_of_lt hfits]
    · have hrest := ih _ (by omega) (i + 1) (.succ hc) rfl
      by_cases ht : b.test i = v
      · rw [rest_hit (by omega) ht]
        exact .next (.now (by rw [pass, if_neg hend, if_neg hc, if_pos ht, hlt])) hrest
      · rw [rest_miss (by omega) ht]
        exact .later (by rw [pass, if_neg hend, if_neg hc, if_neg ht, hlt]) hrest

/-- An iterator that goes back to the beginning never returns `false`. -/
theorem not_gets_none (hb : ¬b.Ends v) {r : Option Nat} (hg : Gets b v i r j) :
    i ≤ 2 ^ 32 - 64 → b.Between v i → r ≠ none ∧ j ≤ 2 ^ 32 - 64 ∧ b.Between v j := by
  obtain ⟨hnum, hlast⟩ : 2 ^ 32 - 64 < b.num ∧ b.chunk (b.num - 1) = ignoreValue v := by
    unfold Ends at hb
    push Not at hb
    exact hb
  have hmax := b.num_lt
  -- where a chunk is not skipped, it is not the last
  have hstep : ∀ {k : Nat}, k ≤ 2 ^ 32 - 64 → b.chunk k ≠ ignoreValue v →
    (k + 1) % 2 ^ 32 = k + 1 ∧ k + 1 ≤ 2 ^ 32 - 64 := by
    intro k hk hc
    have hne : k ≠ 2 ^ 32 - 64 := by
      rintro rfl
      refine hc ?_
      rw [← hlast]
      exact chunk_congr (by omega)
    exact ⟨Nat.mod_eq_of_lt (by omega), by omega⟩
  induction hg with
  | @now i j r h =>
    intro hi hbt
    rw [pass, if_neg (by omega)] at h
    split at h
    · cases h
    · rename_i hc
      obtain ⟨hmod, hle⟩ := hstep hi hc
      split at h
      · obtain ⟨hr, rfl⟩ := Prod.mk.inj h
        obtain rfl := Option.some.inj hr
        rw [hmod]
        exact ⟨nofun, hle, .succ hc⟩
      · cases h
  | @later i j k r h ht ih =>
    intro hi hbt
    rw [pass, if_neg (by omega)] at h
    split at h
    · rename_i hc
      have h0 : i % 64 = 0 := by
        by_contra h0
        exact hbt h0 hc
      obtain ⟨-, rfl⟩ := Prod.mk.inj h
      exact ih (by omega) fun h => absurd h (by omega)
    · rename_i hc
      obtain ⟨hmod, hle⟩ := hstep hi hc
      split at h
      · cases h
      · obtain ⟨-, rfl⟩ := Prod.mk.inj h
        rw [hmod] at ih
        exact ih hle (.succ hc)

theorem not_yields (hb : ¬b.Ends v) (h : Yields b v i l) (hi : i ≤ 2 ^ 32 - 64)
    (hbt : b.Between v i) : False := by
  induction h with
  | done hg => exact (not_gets_none hb hg hi hbt).1 rfl
  | next hg _ ih =>
    obtain ⟨-, hj, hbj⟩ := not_gets_none hb hg hi hbt
    exact ih hj hbj

/-- **The iterator yields the indices with the value**, each once and in ascending order, and then
returns `false`, exactly if the bitmap has at most `2^32 - 64` bits or its last chunk is not one
that is skipped. -/
theorem iter_exact_iff (b : Bitmap) (v : Bool) :
    (∃ l, Yields b v 0 l ∧ l.Pairwise (· < ·) ∧ ∀ i, i ∈ l ↔
        i < b.num ∧ b.test i = v) ↔ b.Ends v := by
  constructor
  · rintro ⟨l, hl, -⟩
    by_contra hb
    exact not_yields hb hl (Nat.zero_le _) fun h => absurd rfl h
  · intro hb
    refine ⟨b.rest v 0, yields_rest hb 0 (fun h => absurd rfl h), rest_sorted b v 0, fun i => ?_⟩
    rw [mem_rest]
    exact ⟨And.right, fun h => ⟨Nat.zero_le i, h⟩⟩

/-- The largest bitmap, with no bit set. -/
def largest : Bitmap where
  num := 2 ^ 32 - 1
  chunks := List.replicate (2 ^ 26) 0
  num_lt := by decide
  fits := by
    rw [List.length_replicate]
    decide

/-- Its iterator goes round for ever. -/
theorem largest_endless : ¬∃ l, Yields largest true 0 l ∧ l.Pairwise (· < ·) ∧ ∀ i, i ∈ l ↔
    i < largest.num ∧ largest.test i = true := by
  rintro ⟨l, hl, -⟩
  have hzero : ∀ i, largest.chunk i = 0 := fun i => by
    unfold chunk largest
    simp only [List.getD_eq_getElem?_getD, List.getElem?_replicate]
    split <;> rfl
  refine not_yields (fun hb => ?_) hl (Nat.zero_le _) fun h => absurd rfl h
  rcases hb with hb | hb
  · exact absurd hb (by decide)
  · exact hb (hzero _)

end Bitmap

end TinyBFT
