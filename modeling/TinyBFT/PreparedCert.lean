import TinyBFT.Certificate

/-!
# `Prepared_cert` (`Prepared_cert.h`, `Prepared_cert.cc`)

The pre-prepare of a sequence number and the prepares that match it.

| here | there |
| --- | --- |
| `PrePrepareMsg`  | a `Pre_prepare` as the protocol sees it; `batch` is its requests and choices |
| `PrePrepareMsg.matchPrepare` | `Pre_prepare::match` (`Pre_prepare.h:164-167`), `none` its `th_assert` |
| `Env.primary`    | `Node::primary(View)` (`Node.h:238-240`) |
| `PreparedCert`   | `pc`, `pp`, `primary` (`Prepared_cert.h:111-115`) |
| `addPrePrepare`  | `add(Pre_prepare*)` (`Prepared_cert.cc:39-81`) |
| `anyCorrect`     | its loop over the values with `f` senders |
| `addMine`, `addMinePrePrepare`, `addOld` | `add_mine`, `add_mine`, `add_old` (`Prepared_cert.h:120-152`) |
| `isComplete`, `markStale`, `clear` | `Prepared_cert.h:167-199` |

`nrc` is what `verify(NRC)` returns for a pre-prepare, `verify()` is that and `reqsOk`, the check of
its requests.
-/

namespace TinyBFT

structure PrePrepareMsg where
  view : Int
  seqno : Int
  digest : Digest
  batch : List UInt8
deriving DecidableEq, Repr

def PrePrepareMsg.matchPrepare (m : PrePrepareMsg) (p : Prepare) : Option Bool :=
  if m.view = p.view ∧ m.seqno = p.seqno then some (m.digest == p.digest) else none

def Env.primary (E : Env) (v : Int) : Nat := (v % E.n).toNat

structure PreparedCert where
  pc : Certificate Prepare
  pp : Option PrePrepareMsg
  primary : Bool
deriving DecidableEq, Repr

namespace PreparedCert

variable (E : Env)

def new : PreparedCert := ⟨Certificate.new E (2 * E.f), none, false⟩

def myPrepare (c : PreparedCert) : Option Prepare := c.pc.mine

def myPrePrepare (c : PreparedCert) : Option PrePrepareMsg := if c.primary then c.pp else none

/-- `pp->match(pc.cvalue())`. -/
def matchCvalue (c : PreparedCert) (m : PrePrepareMsg) :
    Option Bool := do m.matchPrepare (← c.pc.cvalue)

def isComplete (c : PreparedCert) : Option Bool :=
  match c.pp with
  | none => some false
  | some m => if c.pc.isComplete then c.matchCvalue m else some false

def anyCorrect (m : PrePrepareMsg) : List (MessageVal Prepare) → Option Bool
  | [] => some false
  | v :: vs =>
    if E.f ≤ v.count then do
      if ← m.matchPrepare v.m then some true else anyCorrect m vs
    else anyCorrect m vs

/-- The checks of `add(Pre_prepare*)` on a certificate without a pre-prepare. -/
def accepts (c : PreparedCert) (m : PrePrepareMsg) (nrc reqsOk : Bool) : Option Bool :=
  match c.myPrepare with
  | none =>
    if nrc && reqsOk then some true else if nrc then anyCorrect E m c.pc.vals else some false
  | some p => (m.matchPrepare p).map (· && nrc)

def addPrePrepare (c : PreparedCert) (m : PrePrepareMsg) (nrc reqsOk : Bool) :
    Option (PreparedCert × Bool) :=
  if c.pp.isSome then some (c, false)
  else
    (c.accepts E m nrc reqsOk).map fun b => if b then ({ c with pp := some m }, true)
      else (c, false)

/-- `add(Prepare*)`. -/
def add (c : PreparedCert) (p : Prepare) (verify : Bool) : Option (PreparedCert × Bool) :=
  (c.pc.add E p verify).map fun r => ({ c with pc := r.1 }, r.2)

def addMine (c : PreparedCert) (p : Prepare) : Option (PreparedCert × Bool) :=
  if E.id = E.primary p.view then none
  else (c.pc.addMine E p).map fun r => ({ c with pc := r.1 }, r.2)

def addMinePrePrepare (c : PreparedCert) (m : PrePrepareMsg) : Option PreparedCert :=
  if E.id = E.primary m.view ∧ c.pp = none then
    some { c with pp := some m, primary := true } else none

def addOld (c : PreparedCert) (m : PrePrepareMsg) : Option PreparedCert :=
  if c.pp = none then some { c with pp := some m } else none

/-- `isPrimary` says whether the replica is the primary of its current view. -/
def markStale (c : PreparedCert) (isPrimary : Bool) : Option PreparedCert := do
  if ← c.isComplete then some c
  else
    let pc ← c.pc.markStale
    some { c with pc := pc, pp := if isPrimary then c.pp else none }

def clear (c : PreparedCert) : PreparedCert := ⟨c.pc.clear, none, false⟩

/-! ## What one operation does -/

variable {E} {c c' : PreparedCert} {m : PrePrepareMsg} {p : Prepare}

/-- `add(Pre_prepare*)` accepts a pre-prepare only into a certificate without one, and after a
prepare of its own only a matching one. -/
theorem addPrePrepare_cases {nrc reqsOk b : Bool}
    (h : c.addPrePrepare E m nrc reqsOk = some (c', b)) :
    (b = false ∧ c' = c) ∨
    (b = true ∧ c.pp = none ∧ nrc = true ∧ c' = { c with pp := some m } ∧
      ∀ p, c.myPrepare = some p → m.matchPrepare p = some true) := by
  unfold addPrePrepare at h
  split at h
  · obtain ⟨rfl, rfl⟩ := Prod.mk.inj (Option.some.inj h)
    exact .inl ⟨rfl, rfl⟩
  rename_i hpp
  have hpp : c.pp = none := by simpa using hpp
  obtain ⟨a, ha, h⟩ := Option.map_eq_some_iff.1 h
  cases a with
  | false =>
    obtain ⟨rfl, rfl⟩ := Prod.mk.inj h
    exact .inl ⟨rfl, rfl⟩
  | true =>
    obtain ⟨rfl, rfl⟩ := Prod.mk.inj h
    refine .inr ⟨rfl, hpp, ?_, rfl, ?_⟩
    · unfold accepts at ha
      split at ha
      · cases nrc <;> simp_all
      · obtain ⟨d, -, hd⟩ := Option.map_eq_some_iff.1 ha
        exact (Bool.and_eq_true_iff.1 hd).2
    · intro p hp
      unfold accepts at ha
      rw [hp] at ha
      obtain ⟨d, hd, hb⟩ := Option.map_eq_some_iff.1 ha
      rw [hd, (Bool.and_eq_true_iff.1 hb).1]

theorem markStale_cases {isPrimary : Bool} (h : c.markStale isPrimary = some c') :
    (c.isComplete = some true ∧ c' = c) ∨
    (c.isComplete = some false ∧ ∃ pc, c.pc.markStale = some pc ∧
      c' = { c with pc := pc, pp := if isPrimary then c.pp else none }) := by
  simp only [markStale, Option.bind_eq_bind, Option.bind_eq_some_iff] at h
  obtain ⟨b, hb, h⟩ := h
  cases b with
  | true => exact .inl ⟨hb, (Option.some.inj h).symm⟩
  | false =>
    simp only [Bool.false_eq_true, if_false, Option.bind_eq_some_iff] at h
    obtain ⟨pc, hpc, h⟩ := h
    exact .inr ⟨hb, pc, hpc, (Option.some.inj h).symm⟩

/-- `add_mine` records the prepare, or refuses it and changes nothing. -/
theorem addMine_cases {b : Bool} (h : c.addMine E p = some (c', b)) :
    E.id ≠ E.primary p.view ∧ ∃ pc, c.pc.addMine E p = some (pc, b) ∧ c' = { c with pc := pc } := by
  unfold addMine at h
  split at h
  · cases h
  · rename_i hne
    obtain ⟨⟨pc, b'⟩, hpc, heq⟩ := Option.map_eq_some_iff.1 h
    obtain ⟨rfl, rfl⟩ := Prod.mk.inj heq
    exact ⟨hne, pc, hpc, rfl⟩

theorem add_cases {verify b : Bool} (h : c.add E p verify = some (c', b)) :
    ∃ pc, c.pc.add E p verify = some (pc, b) ∧ c' = { c with pc := pc } := by
  obtain ⟨⟨pc, b'⟩, hpc, heq⟩ := Option.map_eq_some_iff.1 h
  obtain ⟨rfl, rfl⟩ := Prod.mk.inj heq
  exact ⟨pc, hpc, rfl⟩

end PreparedCert

end TinyBFT
