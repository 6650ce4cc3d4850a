import TinyBFT.Log
import TinyBFT.Lib.Run

/-!
# The window of a log (`Log.h`, `Log.t`)

| here | there |
| --- | --- |
| `toSeqno`                  | the 64-bit sum `head + max_size` |
| `Log.inRange`, `Log.lookup` | `within_range` and `fetch` (`Log.h:66-69`, `Log.t:42-46`) with that sum |
| `Log.clearAll`             | `clear(h)` (`Log.t:31-39`) |
| `LogOp`, `LogOp.step`      | a call; `modify` writes through the reference that `fetch` returns |

`WindowLaw` says what the elements of the new window are once `truncate(h)` has returned. `truncate`
keeps the law unless the sum leaves the 64 bits or its `int` loop bounds wrap past an element that
is in use.
-/

namespace TinyBFT

/-- A sum of sequence numbers (64 bits, two's complement). -/
def toSeqno (x : Int) : Int := Int.bmod x (2 ^ 64)

theorem toSeqno_eq_self {x : Int} (h1 : 0 ≤ x) (h2 : x ≤ seqnoMax) : toSeqno x = x := by
  unfold toSeqno seqnoMax at *
  rw [Int.bmod_def]
  split <;> omega

/-- A sum that does not fit wraps to a negative number. -/
theorem toSeqno_lt {x : Int} (h1 : seqnoMax < x) (h2 : x ≤ seqnoMax + 2 ^ 31) : toSeqno x < 0 := by
  unfold toSeqno seqnoMax at *
  rw [Int.bmod_def]
  split <;> omega

namespace Log

variable {α : Type} (size : Nat) (clear : α → α)

def init (fresh : α) (h : Int) : Log α := { head := h, elems := fun _ => fresh }

def inRange (l : Log α) (n : Int) : Bool := l.head ≤ n && n < toSeqno (l.head + size)

def lookup (l : Log α) (n : Int) : Option α :=
  if l.inRange size n then some (l.entry size n) else none

def clearAll (l : Log α) (h : Int) : Log α := { head := h, elems := clearFrom size clear l 0 size }

end Log

inductive LogOp (α : Type)
  | truncate (h : Int)
  | clear (h : Int)
  | modify (n : Int) (f : α → α)

namespace LogOp

variable {α : Type} (size : Nat) (clear : α → α)

/-- `none`: the assertion of `fetch` fails. -/
def step (l : Log α) : LogOp α → Option (Log α)
  | .truncate h => some (l.truncate size clear h)
  | .clear h => some (l.clearAll size clear h)
  | .modify n f => (l.lookup size n).map fun a => l.set size n (f a)

/-- Heads are sequence numbers, and a log is truncated to increasing ones. -/
def Valid (l : Log α) : LogOp α → Prop
  | .truncate h => l.head ≤ h ∧ h ≤ seqnoMax
  | .clear h => 0 ≤ h ∧ h ≤ seqnoMax
  | .modify _ _ => True

end LogOp

namespace Log

variable {α : Type} (size : Nat) (clear : α → α)

/-- The elements of the window from `h` on, in the log `l'` that `l` has become. -/
structure WindowLaw (l l' : Log α) (h : Int) : Prop where
  kept : ∀ n, h ≤ n → n < h + size → n < l.head + size → l'.lookup size n = some (l.entry size n)
  cleared : ∀ n, h ≤ n → n < h + size → l.head + size ≤ n → ∃ x, l'.lookup size n = some (clear x)

/-- Two sequence numbers in range never share an element. -/
def Apart (l : Log α) : Prop :=
  ∀ n m, l.inRange size n = true → l.inRange size m = true → slot size n = slot size m → n = m

/-- The elements that leave the window are cleared ones already. -/
def Blank (l : Log α) (h : Int) : Prop :=
  ∀ m, l.head ≤ m → m < l.head + size → m < h → ∃ x, l.entry size m = clear x

/-- The condition for `truncate(h)` to keep the law: the window ends below the largest sequence
number, and the loop bounds do not wrap past an element in use. -/
def Tidy (l : Log α) (h : Int) : Prop :=
  h + size ≤ seqnoMax ∧ (NoWrap l size h ∨ Blank size clear l h)

variable {size clear} {l : Log α} {n m h : Int}

theorem inRange_iff (h0 : 0 ≤ l.head) (h1 : l.head + size ≤ seqnoMax) :
    l.inRange size n = true ↔ l.head ≤ n ∧ n < l.head + size := by
  simp only [inRange, Bool.and_eq_true, decide_eq_true_eq]
  rw [toSeqno_eq_self (by omega) h1]

/-- Once the sum overflows, no sequence number is within range. -/
theorem inRange_overflow (h0 : 0 ≤ l.head) (h1 : l.head ≤ seqnoMax) (hsize : size ≤ 2 ^ 31)
    (h2 : seqnoMax < l.head + size) :
    l.inRange size n = false := by
  have := toSeqno_lt h2 (by omega)
  simp only [inRange, Bool.and_eq_false_imp, decide_eq_true_eq, decide_eq_false_iff_not]
  omega

theorem inRange_bounds (h0 : 0 ≤ l.head) (h1 : l.head ≤ seqnoMax) (hsize : size ≤ 2 ^ 31)
    (hn : l.inRange size n = true) : l.head ≤ n ∧ n < l.head + size := by
  by_cases h2 : l.head + size ≤ seqnoMax
  · exact (inRange_iff h0 h2).1 hn
  · rw [inRange_overflow h0 h1 hsize (by omega)] at hn
    cases hn

theorem apart (h0 : 0 ≤ l.head) (h1 : l.head ≤ seqnoMax) (hsize : size ≤ 2 ^ 31) : Apart size l :=
  fun _ _ hn hm hs =>
  slot_inj (inRange_bounds h0 h1 hsize hn) (inRange_bounds h0 h1 hsize hm) hs

theorem lookup_eq (hn : l.inRange size n = true) : l.lookup size n = some (l.entry size n) :=
  if_pos hn

/-- Loop bounds that wrap make the loop empty: `truncate` moves the head and clears nothing. -/
theorem truncate_wrapped (hnear : h - l.head < size) (hw : toInt h ≤ toInt l.head)
    (hlt : l.head < h) :
    l.truncate size clear h = { l with head := h } := by
  unfold truncate
  rw [if_neg (by omega), if_neg (by omega)]
  have hz : (toInt h - toInt l.head).toNat = 0 := by omega
  have he : clearFrom size clear l (toInt l.head) (toInt h) = l.elems := by
    funext k
    simp [clearFrom, hz]
  rw [he]

section Law

variable {k : Nat} (hk : k < 31) (hsize : size = 2 ^ k) (h0 : 0 ≤ l.head) (h1 : l.head ≤ h)
    (h2 : h ≤ seqnoMax)
include hk hsize

/-- The sizes that the constructor asks for: an `int` that is a power of two. -/
theorem size_bounds : 0 < size ∧ size < 2 ^ 31 ∧ size ∣ 2 ^ 32 := by
  subst hsize
  exact ⟨Nat.two_pow_pos k, Nat.pow_lt_pow_right (by decide) hk, pow_dvd_pow 2 (by omega)⟩

include h0 h1

section Needed

include h2

/-- The law asks for a window that ends below the largest sequence number: `fetch` of its own head
has to succeed. -/
theorem WindowLaw.fits (law : WindowLaw size clear l (l.truncate size clear h) h) :
    h + size ≤ seqnoMax := by
  obtain ⟨hpos, hlt, -⟩ := size_bounds hk hsize
  by_contra hov
  have hhead : (l.truncate size clear h).head = h := by rw [truncate_head, max_eq_right h1]
  have hnone : (l.truncate size clear h).lookup size h = none := by
    have : (l.truncate size clear h).inRange size h = false :=
      inRange_overflow (by omega) (by omega) (by omega) (by omega)
    simp [lookup, this]
  by_cases hold : h < l.head + size
  · have := law.kept h (by omega) (by omega) hold
    rw [hnone] at this
    cases this
  · obtain ⟨x, hx⟩ := law.cleared h (by omega) (by omega) (by omega)
    rw [hnone] at hx
    cases hx

/-- The law asks that a loop that wraps has nothing to clear. -/
theorem WindowLaw.tidy (law : WindowLaw size clear l (l.truncate size clear h) h) :
    Tidy size clear l h := by
  obtain ⟨hpos, hlt, -⟩ := size_bounds hk hsize
  have hfit := law.fits hk hsize h0 h1 h2
  refine ⟨hfit, ?_⟩
  by_cases hw : NoWrap l size h
  · exact .inl hw
  obtain ⟨hnear, hw⟩ : h - l.head < size ∧ toInt h ≤ toInt l.head := by
    unfold NoWrap at hw
    constructor <;> by_contra hc <;> exact hw fun _ => by omega
  refine .inr fun m hm1 _ hm2 => ?_
  -- the element of `m` is the one of `m + size`, which enters the window uncleared
  obtain ⟨x, hx⟩ := law.cleared (m + size) (by omega) (by omega) (by omega)
  rw [truncate_wrapped hnear hw (by omega)] at hx
  have hin : ({ l with head := h } : Log α).inRange size (m + size) = true :=
    (inRange_iff (by simp; omega) hfit).2 ⟨by simp; omega, by simp; omega⟩
  rw [lookup_eq hin] at hx
  have hs : slot size (m + size) = slot size m := (slot_eq_iff hpos).2 (by rw [Int.add_emod_right])
  refine ⟨x, ?_⟩
  rw [← Option.some.inj hx]
  simp only [entry, hs]

end Needed

/-- **The window law of `truncate`.** -/
theorem truncate_windowLaw (ht : Tidy size clear l h) :
    WindowLaw size clear l (l.truncate size clear h) h := by
  obtain ⟨hpos, hlt, hdvd⟩ := size_bounds hk hsize
  obtain ⟨hfit, hclear⟩ := ht
  have hhead : (l.truncate size clear h).head = h := by rw [truncate_head, max_eq_right h1]
  have hin : ∀ n, (l.truncate size clear h).inRange size n = true ↔
    h ≤ n ∧ n < h + size := fun n => by
    rw [inRange_iff (by omega) (by omega), hhead]
  refine ⟨fun n hn1 hn2 hn3 => ?_, fun n hn1 hn2 hn3 => ?_⟩
  · rw [lookup_eq ((hin n).2 ⟨hn1, hn2⟩), entry_truncate hdvd hlt hn1 hn3]
  · rw [lookup_eq ((hin n).2 ⟨hn1, hn2⟩)]
    have hlt' : l.head < h := by omega
    by_cases hw : NoWrap l size h
    · have hnew : ∃ m, l.head ≤ m ∧ m < l.head + size ∧
        m < h ∧ (l.truncate size clear h).entry size n = clear (l.entry size m) :=
        entry_truncate_new hdvd hlt hpos hw hlt' hn3 hn2
      obtain ⟨m, -, -, -, hm⟩ := hnew
      exact ⟨_, congrArg some hm⟩
    · obtain ⟨hnear, hw'⟩ : h - l.head < size ∧ toInt h ≤ toInt l.head := by
        unfold NoWrap at hw
        constructor <;> by_contra hc <;> exact hw fun _ => by omega
      obtain ⟨x, hx⟩ := hclear.resolve_left hw (n - size) (by omega) (by omega) (by omega)
      have hs : slot size (n - size) = slot size n :=
        (slot_eq_iff hpos).2 (by rw [Int.sub_emod_right])
      refine ⟨x, ?_⟩
      rw [truncate_wrapped hnear hw' hlt', ← hx]
      simp only [entry, hs]

include h2 in
theorem windowLaw_iff : WindowLaw size clear l (l.truncate size clear h) h ↔ Tidy size clear l h :=
  ⟨fun law => law.tidy hk hsize h0 h1 h2, truncate_windowLaw hk hsize h0 h1⟩

end Law

end Log

namespace LogOp

variable {α : Type} {size : Nat} {clear : α → α} {l l' : Log α}

/-- The call is a `truncate` that keeps the window law, or another call. -/
def Lawful (size : Nat) (clear : α → α) (l : Log α) : LogOp α → Prop
  | .truncate h => l.WindowLaw size clear (l.truncate size clear h) h
  | _ => True

def Tidy (size : Nat) (clear : α → α) (l : Log α) : LogOp α → Prop
  | .truncate h => l.Tidy size clear h
  | _ => True

/-- The head stays a sequence number. -/
theorem step_head {op : LogOp α} (hl : 0 ≤ l.head ∧ l.head ≤ seqnoMax) (hv : Valid l op)
    (hs : step size clear l op = some l') :
    0 ≤ l'.head ∧ l'.head ≤ seqnoMax := by
  cases op with
  | truncate h =>
    cases hs
    rw [Log.truncate_head]
    exact ⟨le_trans hl.1 (le_max_left _ _), max_le hl.2 hv.2⟩
  | clear h =>
    cases hs
    exact hv
  | modify n f =>
    obtain ⟨a, -, rfl⟩ := Option.map_eq_some_iff.1 hs
    exact hl

/-- **The window law of a log.** In a run of calls from a new log, every `truncate` keeps the window
law if and only if each is taken where its loop bounds do not wrap past an element in use and the
new window fits; no two sequence numbers in range ever share an element. -/
theorem run_windowLaw {k : Nat} (hk : k < 31) (hsize : size = 2 ^ k) {fresh : α} {h0 : Int}
    (h : 0 ≤ h0 ∧ h0 ≤ seqnoMax) {ops : List (LogOp α)}
    (hv : Run.Meets (step size clear) Valid (Log.init fresh h0) ops) :
    (Run.Meets (step size clear) (Lawful size clear) (Log.init fresh h0) ops ↔
      Run.Meets (step size clear) (Tidy size clear) (Log.init fresh h0) ops) ∧
    ∀ l, Run.run (step size clear) (Log.init fresh h0) ops = some l → l.Apart size := by
  refine ⟨?_, fun l hr => ?_⟩
  · refine Run.meets_congr (I := fun l => 0 ≤ l.head ∧ l.head ≤ seqnoMax)
      (fun _ _ _ hl ha hs => step_head hl ha hs)
      (fun l op hl ha => ?_) h hv
    cases op with
    | truncate h => exact Log.windowLaw_iff hk hsize hl.1 ha.1 ha.2
    | clear h => exact Iff.rfl
    | modify n f => exact Iff.rfl
  · have hl := Run.invariant (I := fun l : Log α => 0 ≤ l.head ∧ l.head ≤ seqnoMax)
      (fun _ _ _ hl ha hs => step_head hl ha hs) h hv hr
    obtain ⟨-, hlt, -⟩ := Log.size_bounds hk hsize
    exact Log.apart hl.1 hl.2 (by omega)

/-- A log of four counters, one of which is counted up: the next window has it no more. -/
theorem run_windowLaw_counters :
    Run.Meets (step 4 fun _ => 0) (Lawful 4 fun _ => 0) (Log.init 0 1) [.modify 2 Nat.succ,
        .truncate 3] := by
  have hv : Run.Meets (step 4 fun _ => 0) Valid (Log.init 0 1) [.modify 2 Nat.succ, .truncate 3] :=
    ⟨trivial, fun l hl => ⟨⟨by cases hl; decide, by decide⟩, fun _ _ => trivial⟩⟩
  have ht : Run.Meets (step 4 fun _ => 0) (Tidy 4 fun _ => 0) (Log.init 0 1) [.modify 2 Nat.succ,
    .truncate 3] :=
    ⟨trivial, fun l hl =>
      ⟨by cases hl; exact ⟨by decide, .inl fun _ => by decide⟩, fun _ _ => trivial⟩⟩
  exact (run_windowLaw (k := 2) (by decide) (by decide) (by decide) hv).1.2 ht

/-- At the sequence number `2 ^ 31` the loop bounds wrap: the counter that leaves the window of four
stays in its element, and is the one of the last sequence number of the next window. -/
theorem truncate_wraps :
    ¬ Run.Meets (step 4 fun _ => 0) (Lawful 4 fun _ => 0) (Log.init 0 1)
      [.truncate (2 ^ 31 - 1), .modify (2 ^ 31 - 1) Nat.succ, .truncate (2 ^ 31)] := by
  intro hm
  obtain ⟨-, hm⟩ := hm
  obtain ⟨-, hm⟩ := hm _ rfl
  obtain ⟨law, -⟩ := hm _ rfl
  obtain ⟨x, hx⟩ := law.cleared (2 ^ 31 + 3) (by decide) (by decide) (by decide)
  exact absurd hx (by decide)

end LogOp

end TinyBFT
