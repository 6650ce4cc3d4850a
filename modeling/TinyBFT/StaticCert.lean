import TinyBFT.AgreementRegion
import TinyBFT.Certificate
import TinyBFT.Node

/-!
# Certificates of the static build (`Certificate.h`, `Certificate.t` with `STATIC_LOG_ALLOCATOR`)

In the static build a certificate owns no messages. `persist(i)` copies a message into block `i` of
the slice of its sequence number, and `vals`, `c` and `mym` point to blocks. Which block the correct
value is in is remembered in `correct_id`.

| here | there |
| --- | --- |
| `Sized`          | a message with its `size()`, which `store_prepare` and `store_commit` copy |
| `Blocks`         | the blocks of one certificate: `prepares_`, `commits_` (`agreement_region.cc:48-58`) or `checkpoints_` |
| `StaticCert`     | `Certificate<T>`; `MessageVal.m` and `mym` are addresses of blocks |
| `Held`           | a certificate and the memory that its addresses point into |
| `persist`        | `Prepare::persist`, `Commit::persist` (`Prepare.h:107`, `Commit.h:103`) |
| `add`, `addMine`, `markStale`, `clear`, `cvalueClear` | the operations of the static build |

`mark_stale` moves the own value to `vals[0]` and leaves it in its block, and `correct_id` as it is.
No other value is added while there is a correct one, so two values never share a block. But
`store_prepare` and `store_commit` do not check that the message fits the block, as the other
regions do, and `verify` accepts one that is too long: the copy then overwrites the blocks behind
it. What the program does after that is not defined, so here it stops.
-/

namespace TinyBFT

structure Sized (T : Type) where
  msg : T
  size : Nat
deriving DecidableEq, Repr

instance {T : Type} [CertMsg T] : CertMsg (Sized T) where
  id m := CertMsg.id m.msg
  full m := CertMsg.full m.msg
  matchMsg a b := CertMsg.matchMsg a.msg b.msg

/-- The address of block `i`, the number of blocks, and which messages fit one. -/
structure Blocks (A T : Type) where
  addr : Nat → A
  limit : Nat
  fits : T → Bool

structure StaticCert (A : Type) where
  bmap : List Nat
  vals : List (MessageVal A)
  c : Option Nat
  correctId : Option Nat
  complete : Nat
  mym : Option A

def StaticCert.clear {A : Type} (cert : StaticCert A) : StaticCert A :=
  { cert with bmap := [], vals := [], c := none, correctId := none, mym := none }

/-- No message, and no sender's bit. -/
def StaticCert.Empty {A : Type} (cert : StaticCert A) : Prop :=
  cert.bmap = [] ∧ cert.vals = [] ∧ cert.c = none ∧ cert.mym = none

structure Held (A T : Type) where
  cert : StaticCert A
  mem : A → T

namespace Certificate

variable {T : Type} [CertMsg T] (E : Env) (cert : Certificate T)

/-- `add(m)` makes `m` the message of a value: of a new one, or in the place of one that is not
full. -/
def keepsAdd (m : T) (verify : Bool) : Bool :=
  E.isReplica (CertMsg.id m) && !cert.bmap.contains (CertMsg.id m) &&
    verify && CertMsg.id m != E.id &&
    match cert.c with
    | some k =>
      cert.vals[k]?.any fun v => cert.countsFor v m == some true &&
        (!CertMsg.full v.m && CertMsg.full m)
    | none =>
      match findMatch m cert.vals with
      | some (some i) => cert.vals[i]?.any fun v => !CertMsg.full v.m && CertMsg.full m
      | some none => decide (cert.vals.length < E.f + 1)
      | none => false

/-- `add_mine(m)` makes `m` the message of a value. -/
def keepsOwn (m : T) : Bool :=
  CertMsg.id m == E.id && CertMsg.full m &&
    match cert.c with
    | some k => cert.vals[k]?.any fun v => CertMsg.matchMsg v.m m == some true
    | none =>
      match findMatch m cert.vals with
      | some (some i) => cert.vals[i]?.isSome
      | some none => true
      | none => false

end Certificate

namespace Held

set_option linter.unusedSectionVars false

variable {A T : Type} [DecidableEq A] [CertMsg T] (E : Env) (B : Blocks A T)

def new (comp : Nat) (mem : A → T) : Held A T :=
  ⟨⟨[], [], none, none, if comp = 0 then 2 * E.f + 1 else comp, none⟩, mem⟩

/-- The values, with the messages that they point to. -/
def read (s : Held A T) : List (MessageVal T) := s.cert.vals.map fun v => ⟨s.mem v.m, v.count⟩

/-- `m->persist(i)`: the block's address. -/
def persist (m : T) (i : Option Nat) (s : Held A T) : Option (A × Held A T) := do
  let i ← i
  if i < B.limit && B.fits m then
    some (B.addr i, { s with mem := Function.update s.mem (B.addr i) m }) else none

def setVals (vals : List (MessageVal A)) (s : Held A T) : Held A T :=
  { s with cert := { s.cert with vals } }

/-- `bmap.set(id)`. -/
def mark (id : Nat) (s : Held A T) : Held A T :=
  { s with cert := { s.cert with bmap := id :: s.cert.bmap } }

/-- `c = vals + i; correct_id = i`. -/
def setCorrect (i : Nat) (s : Held A T) : Held A T :=
  { s with cert := { s.cert with c := some i, correctId := some i } }

def clear (s : Held A T) : Held A T := { s with cert := s.cert.clear }

/-- `vals[k].count++`, and `m` replaces its message if it is full and the old one is not. -/
def absorb (m : T) (k : Nat) (v : MessageVal A) (i : Option Nat) (s : Held A T) :
    Option (Held A T) :=
  if !CertMsg.full (s.mem v.m) && CertMsg.full m then do
    let (a, s) ← persist B m i s
    some (s.setVals (s.cert.vals.set k ⟨a, v.count + 1⟩))
  else some (s.setVals (s.cert.vals.set k ⟨v.m, v.count + 1⟩))

/-- `c->count < complete && c->m->match(m)`. -/
def countsFor (s : Held A T) (v : MessageVal A) (m : T) : Option Bool :=
  if v.count < s.cert.complete then CertMsg.matchMsg (s.mem v.m) m else some false

def add (m : T) (verify : Bool) (s : Held A T) : Option (Held A T × Bool) :=
  let id := CertMsg.id m
  let refused := some (if verify then s.mark id else s, false)
  if !(E.isReplica id && !s.cert.bmap.contains id) then some (s, false)
  else
    match s.cert.c with
    | some k => do
      let v ← s.cert.vals[k]?
      let counts ← s.countsFor v m
      if counts && verify then
        if id = E.id then none
        else do
          let s ← absorb B m k v s.cert.correctId (s.mark id)
          some (s, true)
      else refused
    | none =>
      if !verify then refused
      else if id = E.id then none
      else do
        match ← Certificate.findMatch m s.read with
        | some i => do
          let v ← s.cert.vals[i]?
          let s ← absorb B m i v (some i) (if E.f + 1 ≤ v.count + 1 then (s.mark id).setCorrect i
            else s.mark id)
          some (s, true)
        | none =>
          if s.cert.vals.length < E.f + 1 then do
            let (a, s) ← persist B m (some s.cert.vals.length) (s.mark id)
            some (s.setVals (s.cert.vals ++ [⟨a, 1⟩]), true)
          else some (s.clear, false)

/-- The end of `add_mine`: the own message replaces the value at `c`. -/
def own (m : T) (vals : A → List (MessageVal A)) (s : Held A T) : Option (Held A T × Bool) := do
  let (a, s) ← persist B m s.cert.correctId s
  let s := (s.mark (CertMsg.id m)).setVals (vals a)
  some ({ s with cert := { s.cert with mym := some a } }, true)

def addMine (m : T) (s : Held A T) : Option (Held A T × Bool) :=
  if !(CertMsg.id m == E.id && CertMsg.full m) then none
  else
    match s.cert.c with
    | some k => do
      let v ← s.cert.vals[k]?
      if ← CertMsg.matchMsg (s.mem v.m) m then
        own B m (fun a => s.cert.vals.set k ⟨a, v.count + 1⟩) s
      else some (s, false)
    | none => do
      match ← Certificate.findMatch m s.read with
      | some i => do
        let v ← s.cert.vals[i]?
        own B m (fun a => s.cert.vals.set i ⟨a, v.count + 1⟩) (s.setCorrect i)
      | none => own B m (fun a => ⟨a, 1⟩ :: s.cert.vals.tail) (s.setCorrect 0)

/-- The address of the correct value. -/
def cval (s : Held A T) : Option (MessageVal A) := s.cert.c.bind (s.cert.vals[·]?)

def isComplete (s : Held A T) : Bool := s.cert.complete ≤ (s.cval.map (·.count)).getD 0

/-- The pointers `mym` and `c->m` are compared. -/
def markStale (s : Held A T) : Option (Held A T) :=
  if s.isComplete then some s
  else
    match s.cert.mym with
    | some a =>
      if s.cval.map (·.m) = some a then
        some { s with cert := { s.cert with bmap := [], vals := [⟨a, 1⟩], c := some 0 } }
      else none
    | none => some { s with cert := { s.cert with bmap := [], vals := [], c := none } }

/-- `cvalue_clear`: the returned pointer still points to the block. -/
def cvalueClear (s : Held A T) : Held A T × Option T :=
  match s.cert.c with
  | none => (s, none)
  | some _ => (s.clear, s.cval.map fun v => s.mem v.m)

/-! ## The certificate of the heap build that it stands for -/

def view (s : Held A T) : Certificate T :=
  ⟨s.cert.bmap, s.read, s.cert.c, s.cert.complete, s.cert.mym.map s.mem⟩

/-- The blocks of the values. -/
def addrs (s : Held A T) : List A := s.cert.vals.map (·.m)

/-- Where the values are: in the blocks of their indices, or, after `mark_stale`, the own one alone
in any block. -/
structure Placed (E : Env) (B : Blocks A T) (s : Held A T) : Prop where
  length_le : s.addrs.length ≤ E.f + 1
  valid : ∀ k, s.cert.c = some k → k < s.addrs.length
  places : ((∀ i a, s.addrs[i]? = some a → a = B.addr i) ∧ ∀ k,
    s.cert.c = some k → s.cert.correctId = some k) ∨
    ∃ j, s.addrs = [B.addr j] ∧ s.cert.c = some 0 ∧ s.cert.correctId = some j ∧ j < E.f + 1
  mym : ∀ a, s.cert.mym = some a → (∃ k, s.cert.c = some k ∧ s.addrs[k]? = some a) ∧
    CertMsg.full (s.mem a) = true

variable {E B} {s t : Held A T} {m : T} {i j k : Nat} {v : MessageVal A}

theorem Placed.congr (h : Placed E B s) (ha : t.addrs = s.addrs) (hc : t.cert.c = s.cert.c)
    (hi : t.cert.correctId = s.cert.correctId) (hm : t.cert.mym = s.cert.mym)
    (hmem : ∀ a, s.cert.mym = some a → t.mem a = s.mem a) : Placed E B t := by
  refine ⟨by rw [ha]; exact h.length_le, by rw [ha, hc]; exact h.valid, by
    rw [ha, hc, hi]; exact h.places, fun a ht => ?_⟩
  rw [hm] at ht
  rw [ha, hc, hmem a ht]
  exact h.mym a ht

theorem addrs_getElem (hv : s.cert.vals[k]? = some v) :
    s.addrs[k]? = some v.m := by simp [addrs, hv]

/-- The block of the correct value is the one that `correct_id` names, and no other value is in
it. -/
theorem Placed.correct (hinj : Function.Injective B.addr) (h : Placed E B s)
    (hc : s.cert.c = some k) (hv : s.cert.vals[k]? = some v) :
    ∃ j, s.cert.correctId = some j ∧ v.m = B.addr j ∧ j < E.f + 1 ∧ ∀ i,
      s.addrs[i]? = some (B.addr j) → i = k := by
  have hk := addrs_getElem hv
  rcases h.places with ⟨ha, hcorrect⟩ | ⟨j, ha, hc', hj, hlt⟩
  · have hlen := h.length_le
    have hlt := h.valid k hc
    exact ⟨k, hcorrect k hc, ha k v.m hk, by omega, fun i hi => (hinj (ha i _ hi)).symm⟩
  · obtain rfl : k = 0 := by
      rw [hc] at hc'
      exact Option.some.inj hc'
    rw [ha] at hk
    refine ⟨j, hj, (by simpa using hk.symm), hlt, fun i hi => ?_⟩
    have := List.getElem?_eq_some_iff.1 hi
    obtain ⟨hi, -⟩ := this
    rw [ha, List.length_singleton] at hi
    omega

/-- Without a correct value each value is in the block of its index. -/
theorem Placed.unknown (hinj : Function.Injective B.addr) (h : Placed E B s)
    (hc : s.cert.c = none) :
    s.cert.mym = none ∧ (∀ i a, s.addrs[i]? = some a → a = B.addr i) ∧ ∀ i k,
      s.addrs[i]? = some (B.addr k) → i = k := by
  have hmym : s.cert.mym = none := by
    cases hm : s.cert.mym with
    | none => rfl
    | some a =>
      obtain ⟨⟨k, hk, -⟩, -⟩ := h.mym a hm
      rw [hc] at hk
      cases hk
  rcases h.places with ⟨ha, -⟩ | ⟨j, -, hc', -⟩
  · exact ⟨hmym, ha, fun i k hi => (hinj (ha i _ hi)).symm⟩
  · rw [hc] at hc'
    cases hc'

/-- Every value is in a block of the certificate. -/
theorem Placed.block (h : Placed E B s) {a : A} (ha : s.addrs[i]? = some a) :
    ∃ j, a = B.addr j := by
  rcases h.places with ⟨hp, -⟩ | ⟨j, hp, -⟩
  · exact ⟨i, hp i a ha⟩
  · rw [hp] at ha
    exact ⟨j, List.mem_singleton.1 (List.mem_of_getElem? ha)⟩

/-- A certificate does not notice what happens to the memory outside the blocks of its values. -/
theorem Placed.frame (h : Placed E B s) (hc : t.cert = s.cert)
    (hmem : ∀ a ∈ s.addrs, t.mem a = s.mem a) :
    Placed E B t ∧ t.read = s.read := by
  constructor
  · refine h.congr (by simp [addrs, hc]) (by rw [hc]) (by rw [hc]) (by rw [hc]) fun a ha => ?_
    obtain ⟨⟨k, -, hk⟩, -⟩ := h.mym a ha
    exact hmem a (List.mem_of_getElem? hk)
  · unfold read
    rw [hc]
    apply List.map_congr_left
    intro v hv
    rw [hmem v.m (List.mem_map_of_mem hv)]

theorem Placed.frame_view (h : Placed E B s) (hc : t.cert = s.cert)
    (hmem : ∀ a ∈ s.addrs, t.mem a = s.mem a) : t.view = s.view := by
  obtain ⟨-, hread⟩ := h.frame hc hmem
  have hmym : t.cert.mym.map t.mem = s.cert.mym.map s.mem := by
    rw [hc]
    cases hm : s.cert.mym with
    | none => rfl
    | some a =>
      obtain ⟨⟨k, -, hk⟩, -⟩ := h.mym a hm
      exact congrArg some (hmem a (List.mem_of_getElem? hk))
  unfold view
  rw [hread, hmym, hc]

/-! ## Storing a message -/

/-- A message stored in the block of value `k` changes that value and no other. -/
theorem read_store {a : A} {n : Nat} (honly : ∀ i, s.addrs[i]? = some a → i = k) :
    ((s.cert.vals.set k ⟨a, n⟩).map fun v =>
        (⟨Function.update s.mem a m v.m, v.count⟩ : MessageVal T)) = s.read.set k ⟨m, n⟩ := by
  apply List.ext_getElem?
  intro i
  simp only [List.getElem?_map, List.getElem?_set, read, List.length_map]
  by_cases hik : k = i
  · subst hik
    by_cases hlt : k < s.cert.vals.length <;> simp [hlt]
  · rw [if_neg hik, if_neg hik]
    cases hv : s.cert.vals[i]? with
    | none => rfl
    | some w =>
      have hne : w.m ≠ a := fun he => hik (honly i (by rw [addrs_getElem hv, he])).symm
      simp [hne]

theorem read_count {n : Nat} :
    (s.setVals (s.cert.vals.set k ⟨v.m, n⟩)).read = s.read.set k ⟨s.mem v.m, n⟩ := by
  simp [read, setVals, List.map_set]

theorem addrs_set {n : Nat} (hv : s.cert.vals[k]? = some v) :
    (s.cert.vals.set k ⟨v.m, n⟩).map (·.m) = s.addrs := by
  rw [List.map_set]
  apply List.ext_getElem?
  intro i
  rw [List.getElem?_set]
  by_cases hik : k = i
  · subst hik
    obtain ⟨hlt, -⟩ := List.getElem?_eq_some_iff.1 hv
    rw [if_pos rfl, if_pos (by simpa using hlt), addrs_getElem hv]
  · rw [if_neg hik]
    rfl

theorem persist_eq (hj : j < B.limit) :
    persist B m (some j) s = if B.fits m then
      some (B.addr j, { s with mem := Function.update s.mem (B.addr j) m }) else none := by
  simp [persist, hj]

/-- The static operation does what the heap one does, unless it stores a message that is too
long. -/
inductive Sim (E : Env) (B : Blocks A T) (m : T) (keeps : Bool) :
    Option (Held A T × Bool) → Option (Certificate T × Bool) → Prop
  | stop : keeps = false → Sim E B m keeps none none
  | same (t : Held A T) (b : Bool) : Placed E B t → (keeps = true → B.fits m = true) →
    Sim E B m keeps (some (t, b)) (some (t.view, b))
  | overrun (r : Certificate T × Bool) : keeps = true →
    B.fits m = false → Sim E B m keeps none (some r)

theorem Placed.mark (h : Placed E B s) (id : Nat) : Placed E B (s.mark id) :=
  h.congr rfl rfl rfl rfl fun _ _ => rfl

theorem Placed.setCorrect (h : Placed E B s) (hinj : Function.Injective B.addr)
    (hc : s.cert.c = none) (hi : i < s.addrs.length) :
    Placed E B (s.setCorrect i) := by
  obtain ⟨hmym, ha, -⟩ := h.unknown hinj hc
  refine ⟨h.length_le, fun k hk => ?_, .inl ⟨ha, fun k hk => hk⟩, fun a hm => ?_⟩
  · obtain rfl : i = k := Option.some.inj hk
    exact hi
  · have hm : s.cert.mym = some a := hm
    rw [hmym] at hm
    cases hm

/-- `absorb` for a value that is alone in block `j`. -/
theorem absorb_sim (h : Placed E B s) (hlim : E.f + 1 ≤ B.limit) (hv : s.cert.vals[k]? = some v)
    (hm : v.m = B.addr j) (hj : j < E.f + 1) (honly : ∀ i, s.addrs[i]? = some (B.addr j) → i = k) :
    Sim E B m (!CertMsg.full (s.mem v.m) && CertMsg.full m) ((absorb B m k v (some j) s).bind
        fun s => some (s, true))
      (some ({ s.view with vals := s.read.set k (Certificate.MessageVal.absorb ⟨s.mem v.m,
            v.count⟩ m) }, true)) := by
  unfold absorb
  cases hfull : !CertMsg.full (s.mem v.m) && CertMsg.full m with
  | false =>
    have habs : Certificate.MessageVal.absorb ⟨s.mem v.m, v.count⟩ m =
      ⟨s.mem v.m, v.count + 1⟩ := by
      simp [Certificate.MessageVal.absorb, hfull]
    rw [habs, ← read_count]
    refine .same _ _ (h.congr (addrs_set hv) rfl rfl rfl fun _ _ => rfl) fun h => ?_
    simp at h
  | true =>
    have habs : Certificate.MessageVal.absorb ⟨s.mem v.m, v.count⟩ m = ⟨m, v.count + 1⟩ := by
      simp [Certificate.MessageVal.absorb, hfull]
    rw [habs, if_pos rfl, persist_eq (by omega)]
    cases hfit : B.fits m with
    | false => exact .overrun _ rfl hfit
    | true =>
      have hmym : ∀ a, s.cert.mym = some a → Function.update s.mem (B.addr j) m a = s.mem a := by
        intro a ha
        have hne : a ≠ B.addr j := by
          rintro rfl
          have hf := (h.mym _ ha).2
          rw [← hm] at hf
          simp [hf] at hfull
        simp [hne]
      have haddr : (s.cert.vals.set k ⟨B.addr j, v.count + 1⟩).map (·.m) = s.addrs := by
        rw [← hm]
        exact addrs_set hv
      have hview : ({ s.view with vals := s.read.set k ⟨m, v.count + 1⟩ } : Certificate T) =
          (({ s with mem := Function.update s.mem (B.addr j) m } : Held A T).setVals
            (s.cert.vals.set k ⟨B.addr j, v.count + 1⟩)).view := by
        have hown : s.cert.mym.map (Function.update s.mem (B.addr j) m) = s.cert.mym.map s.mem := by
          cases hs : s.cert.mym with
          | none => rfl
          | some a => simp [hmym a hs]
        have hread := read_store (m := m) (n := v.count + 1) honly
        simp only [view, setVals, read] at hread ⊢
        rw [hread, hown]
      rw [hview]
      exact .same _ _ (h.congr haddr rfl rfl rfl hmym) fun _ => hfit

theorem read_getElem (k : Nat) :
    s.read[k]? = s.cert.vals[k]?.map fun v => ⟨s.mem v.m, v.count⟩ := by simp [read]

theorem Sim.of_eq {keeps keeps' : Bool} {x x' : Option (Held A T × Bool)}
    {y y' : Option (Certificate T × Bool)} (h : Sim E B m keeps x y) (hk : keeps' = keeps)
    (hx : x' = x) (hy : y' = y) : Sim E B m keeps' x' y' := by
  rw [hk, hx, hy]
  exact h

/-- The message is refused. -/
theorem Sim.refused (h : Placed E B s) (verify : Bool) :
    Sim E B m false (some (if verify then s.mark (CertMsg.id m) else s, false))
      (some (if verify then { s.view with bmap := CertMsg.id m :: s.view.bmap }
            else s.view, false)) := by
  cases verify with
  | false => exact .same s false h (by simp)
  | true => exact .same (s.mark _) false (h.mark _) (by simp)

/-- A new value in the next block. -/
theorem Sim.append (h : Placed E B s) (hinj : Function.Injective B.addr) (hlim : E.f + 1 ≤ B.limit)
    (hc : s.cert.c = none) (hlt : s.cert.vals.length < E.f + 1) :
    Sim E B m true ((persist B m (some s.cert.vals.length) s).bind
        fun r => some (r.2.setVals (r.2.cert.vals ++ [⟨r.1, 1⟩]), true))
      (some ({ s.view with vals := s.read ++ [⟨m, 1⟩] }, true)) := by
  obtain ⟨hmym, ha, honly⟩ := h.unknown hinj hc
  rw [persist_eq (by omega)]
  cases hfit : B.fits m with
  | false => exact .overrun _ rfl hfit
  | true =>
    have hread : ((s.cert.vals ++ [(⟨B.addr s.cert.vals.length, 1⟩ : MessageVal A)]).map fun v =>
        (⟨Function.update s.mem (B.addr s.cert.vals.length) m v.m, v.count⟩ : MessageVal T)) =
          s.read ++ [⟨m, 1⟩] := by
      simp only [List.map_append, List.map_cons, List.map_nil,
        Function.update_self, read, List.append_cancel_right_eq]
      apply List.map_congr_left
      intro v hv
      obtain ⟨i, hi⟩ := List.mem_iff_getElem?.1 hv
      have hne : v.m ≠ B.addr s.cert.vals.length := by
        intro he
        have := honly i _ (by rw [addrs_getElem hi, he])
        have := (List.getElem?_eq_some_iff.1 hi).1
        omega
      simp [hne]
    have hview : ({ s.view with vals := s.read ++ [⟨m, 1⟩] } : Certificate T) =
        (({ s with mem := Function.update s.mem (B.addr s.cert.vals.length) m } : Held A T).setVals
          (s.cert.vals ++ [⟨B.addr s.cert.vals.length, 1⟩])).view := by
      simp only [view, setVals, read] at hread ⊢
      rw [hread, hmym]
      rfl
    rw [hview]
    refine .same _ _ ⟨?_, ?_, .inl ⟨fun i a hi => ?_, ?_⟩, ?_⟩ fun _ => hfit
    · simp only [addrs, setVals, List.length_map, List.length_append, List.length_singleton]
      omega
    · simp [setVals, hc]
    · simp only [addrs, setVals, List.map_append, List.map_cons,
        List.map_nil, List.getElem?_append, List.length_map] at hi
      split at hi
      · exact ha i a hi
      · rename_i hge
        have hz : i - s.cert.vals.length = 0 := by
          have := (List.getElem?_eq_some_iff.1 hi).1
          simp at this
          omega
        have : i = s.cert.vals.length := by omega
        simp [hz] at hi
        rw [← hi, this]
    · simp [setVals, hc]
    · simp [setVals, hmym]

theorem placed_clear : Placed E B s.clear := by
  refine ⟨?_, ?_, .inl ⟨?_, ?_⟩, ?_⟩ <;> simp [Held.clear, StaticCert.clear, addrs]

/-- **`add`** in the two builds. -/
theorem add_sim (hinj : Function.Injective B.addr) (hlim : E.f + 1 ≤ B.limit) (h : Placed E B s)
    (verify : Bool) :
    Sim E B m (s.view.keepsAdd E m verify) (add E B m verify s) (s.view.add E m verify) := by
  have hb : s.view.bmap = s.cert.bmap := rfl
  have hcv : s.view.c = s.cert.c := rfl
  have hvv : s.view.vals = s.read := rfl
  unfold add Certificate.add Certificate.keepsAdd
  dsimp only
  rw [hb, hcv, hvv]
  cases hnew : E.isReplica (CertMsg.id m) && !s.cert.bmap.contains (CertMsg.id m) with
  | false =>
    simp only [Bool.not_false, if_true, Bool.false_and]
    exact .same s false h (by simp)
  | true =>
    simp only [Bool.not_true, Bool.false_eq_true, if_false, Bool.true_and]
    cases hc : s.cert.c with
    | some k =>
      simp only [read_getElem]
      cases hv : s.cert.vals[k]? with
      | none => exact .of_eq (.stop rfl) (by simp) rfl rfl
      | some v =>
        obtain ⟨j, hj, hvm, hlt, honly⟩ := h.correct hinj hc hv
        have hcf : s.view.countsFor ⟨s.mem v.m, v.count⟩ m = s.countsFor v m := rfl
        simp only [Option.bind_eq_bind, Option.bind_some, Option.map_some, Option.any_some, hcf]
        cases hcount : s.countsFor v m with
        | none => exact .of_eq (.stop rfl) (by simp) rfl rfl
        | some counts =>
          simp only [Option.bind_some]
          cases hboth : counts && verify with
          | false =>
            have hkeep : (verify && CertMsg.id m != E.id &&
                (some counts == some true && (!CertMsg.full (s.mem v.m) && CertMsg.full m))) =
                  false := by
              cases counts <;> cases verify <;> simp_all
            exact .of_eq (.refused h verify) hkeep (by simp) (by simp [hb, hcv, hvv, hc])
          | true =>
            obtain ⟨rfl, rfl⟩ : counts = true ∧ verify = true := by simpa using hboth
            by_cases hid : CertMsg.id m = E.id
            · exact .of_eq (.stop rfl) (by simp [hid]) (by simp [hid]) (by simp [hid])
            · exact .of_eq (absorb_sim (h.mark (CertMsg.id m)) hlim hv hvm hlt honly)
                (by simp [hid, mark])
                (by simp [hid, hj])
                (by rw [if_pos rfl, if_neg hid, ← hc]; rfl)
    | none =>
      have hmatch := h.unknown hinj hc
      cases verify with
      | false =>
        simp only [Bool.not_false, if_true, Bool.false_and]
        exact .same s false h (by simp)
      | true =>
        simp only [Bool.not_true, Bool.false_eq_true, if_false, Bool.true_and, Option.bind_eq_bind]
        by_cases hid : CertMsg.id m = E.id
        · simp only [hid, if_true, bne_self_eq_false, Bool.false_and]
          exact .stop rfl
        simp only [if_neg hid, bne_iff_ne.2 hid, Bool.true_and]
        cases hf : Certificate.findMatch m s.read with
        | none => exact .stop rfl
        | some o =>
          simp only [Option.bind_some]
          cases o with
          | some i =>
            simp only [read_getElem]
            cases hv : s.cert.vals[i]? with
            | none => exact .of_eq (.stop rfl) (by simp) rfl rfl
            | some v =>
              have hvm := hmatch.2.1 i _ (addrs_getElem hv)
              have hlen := h.length_le
              have hlt := (List.getElem?_eq_some_iff.1 (addrs_getElem hv)).1
              have honly : ∀ x, s.addrs[x]? = some (B.addr i) → x = i :=
                fun x hx => hmatch.2.2 x i hx
              simp only [Option.bind_some, Option.map_some, Option.any_some]
              have habs :
                (Certificate.MessageVal.absorb ⟨s.mem v.m, v.count⟩ m).count = v.count + 1 := rfl
              by_cases hcount : E.f + 1 ≤ v.count + 1
              · rw [if_pos hcount]
                refine .of_eq (absorb_sim ((h.mark (CertMsg.id m)).setCorrect hinj hc hlt)
                  hlim hv hvm (by omega) honly) rfl rfl ?_
                rw [habs, if_pos hcount]
                rfl
              · rw [if_neg hcount]
                refine .of_eq
                  (absorb_sim (h.mark (CertMsg.id m)) hlim hv hvm (by omega) honly) rfl rfl ?_
                rw [habs, if_neg hcount, ← hc]
                rfl
          | none =>
            have hlen : s.read.length = s.cert.vals.length := by simp [read]
            by_cases hroom : s.cert.vals.length < E.f + 1
            · simp only [hlen, hroom, decide_true, if_true]
              refine .of_eq (.append (h.mark (CertMsg.id m)) hinj hlim hc hroom) rfl rfl ?_
              rw [← hc]
              rfl
            · simp only [if_neg hroom, hlen, decide_eq_false hroom]
              exact .same s.clear false placed_clear (by simp)

/-- The own message becomes value `k`, in block `j`. -/
theorem own_sim (vals : A → List (MessageVal A)) {rs : List (MessageVal T)}
    (hlim : E.f + 1 ≤ B.limit) (hfull : CertMsg.full m = true) (hc : s.cert.c = some k)
    (hj : s.cert.correctId = some j) (hlt : j < E.f + 1) (hread : ((vals (B.addr j)).map
      fun v => (⟨Function.update s.mem (B.addr j) m v.m, v.count⟩ : MessageVal T)) = rs)
    (hlen : (vals (B.addr j)).length ≤ E.f + 1)
    (hk : ((vals (B.addr j)).map (·.m))[k]? = some (B.addr j))
    (hplaces : (∀ i a, ((vals (B.addr j)).map (·.m))[i]? = some a → a = B.addr i) ∧ j = k ∨
      (vals (B.addr j)).map (·.m) = [B.addr j] ∧ k = 0) :
    Sim E B m true (own B m vals s)
      (some ({ s.view with bmap := CertMsg.id m :: s.cert.bmap,
                           vals := rs, mym := some m }, true)) := by
  unfold own
  rw [hj, persist_eq (by omega)]
  cases hfit : B.fits m with
  | false => exact .overrun _ rfl hfit
  | true =>
    refine .of_eq (.same ⟨{ s.cert with bmap := CertMsg.id m :: s.cert.bmap,
                                        vals := vals (B.addr j), mym := some (B.addr j) },
      Function.update s.mem (B.addr j) m⟩ true ⟨?_, ?_, ?_, ?_⟩ fun _ => hfit) rfl rfl ?_
    · simpa [addrs] using hlen
    · intro i hi
      obtain rfl : k = i := by
        rw [hc] at hi
        exact Option.some.inj hi
      simpa [addrs] using (List.getElem?_eq_some_iff.1 hk).1
    · rcases hplaces with ⟨ha, rfl⟩ | ⟨ha, rfl⟩
      · refine .inl ⟨ha, fun i hi => ?_⟩
        rw [hc] at hi
        rw [← hi]
        exact hj
      · exact .inr ⟨j, ha, hc, hj, hlt⟩
    · intro a ha
      obtain rfl : B.addr j = a := Option.some.inj ha
      exact ⟨⟨k, hc, hk⟩, by simpa using hfull⟩
    · simp [view, read, hread]

/-- **`add_mine`** in the two builds. -/
theorem addMine_sim (hinj : Function.Injective B.addr) (hlim : E.f + 1 ≤ B.limit)
    (hE : E.staticLog = true) (h : Placed E B s) :
    Sim E B m (s.view.keepsOwn E m) (addMine E B m s) (s.view.addMine E m) := by
  have hb : s.view.bmap = s.cert.bmap := rfl
  have hcv : s.view.c = s.cert.c := rfl
  have hvv : s.view.vals = s.read := rfl
  unfold addMine Certificate.addMine Certificate.keepsOwn
  rw [hb, hcv, hvv, hE]
  cases hown : CertMsg.id m == E.id && CertMsg.full m with
  | false => exact .stop rfl
  | true =>
    have hfull : CertMsg.full m = true := by
      simp only [Bool.and_eq_true] at hown
      exact hown.2
    simp only [Bool.not_true, Bool.false_eq_true, if_false,
      if_true, Bool.true_and, Option.bind_eq_bind]
    cases hc : s.cert.c with
    | some k =>
      simp only [read_getElem]
      cases hv : s.cert.vals[k]? with
      | none => exact .stop rfl
      | some v =>
        obtain ⟨j, hj, hvm, hlt, honly⟩ := h.correct hinj hc hv
        simp only [Option.bind_some, Option.map_some, Option.any_some]
        cases hmatch : CertMsg.matchMsg (s.mem v.m) m with
        | none => exact .of_eq (.stop rfl) rfl rfl rfl
        | some b =>
          simp only [Option.bind_some]
          cases b with
          | false => exact .same s false h (by simp)
          | true =>
            have haddr : (s.cert.vals.set k ⟨B.addr j, v.count + 1⟩).map (·.m) = s.addrs := by
              rw [← hvm]
              exact addrs_set hv
            have hlen := h.length_le
            refine .of_eq (own_sim (fun a => s.cert.vals.set k ⟨a, v.count + 1⟩)
              hlim hfull hc hj hlt (read_store honly)
              (by simpa [addrs] using hlen) ?_ ?_) rfl rfl ?_
            · rw [haddr, addrs_getElem hv, hvm]
            · rw [haddr]
              rcases h.places with ⟨ha, hi⟩ | ⟨x, ha, hc', hi, -⟩
              · rw [hi k hc] at hj
                exact .inl ⟨ha, (Option.some.inj hj).symm⟩
              · rw [hi] at hj
                rw [hc] at hc'
                exact .inr ⟨by rw [ha, Option.some.inj hj], Option.some.inj hc'⟩
            · simp only [if_true, ← hc]
              rfl
    | none =>
      obtain ⟨-, ha, honly⟩ := h.unknown hinj hc
      have hlen := h.length_le
      cases hf : Certificate.findMatch m s.read with
      | none => exact .stop rfl
      | some o =>
        simp only [Option.bind_some]
        cases o with
        | some i =>
          simp only [read_getElem]
          cases hv : s.cert.vals[i]? with
          | none => exact .stop rfl
          | some v =>
            have hvm := ha i _ (addrs_getElem hv)
            have hlt := (List.getElem?_eq_some_iff.1 (addrs_getElem hv)).1
            have haddr : (s.cert.vals.set i ⟨B.addr i, v.count + 1⟩).map (·.m) = s.addrs := by
              rw [← hvm]
              exact addrs_set hv
            have hstore := read_store (m := m) (n := v.count + 1) fun x hx => honly x i hx
            refine .of_eq (own_sim (s := s.setCorrect i)
              (fun a => s.cert.vals.set i ⟨a, v.count + 1⟩) hlim hfull rfl rfl (by omega)
              hstore (by simpa [addrs] using hlen) ?_ (.inl ⟨?_, rfl⟩)) rfl rfl rfl
            · rw [haddr, addrs_getElem hv, hvm]
            · rw [haddr]
              exact ha
        | none =>
          -- the first value, if there is one, gives its block to the own message
          have hstore : ((⟨B.addr 0, 1⟩ :: s.cert.vals.tail : List (MessageVal A)).map fun v =>
              (⟨Function.update s.mem (B.addr 0) m v.m, v.count⟩ : MessageVal T)) =
                ⟨m, 1⟩ :: s.read.tail := by
            cases hvs : s.cert.vals with
            | nil => simp [read, hvs]
            | cons v vs =>
              have := read_store (m := m) (n := 1) fun x hx => honly x 0 hx
              simpa [hvs, read] using this
          have haddr : ∀ i a,
            ((⟨B.addr 0, 1⟩ :: s.cert.vals.tail : List (MessageVal A)).map (·.m))[i]? = some a →
            a = B.addr i := by
            intro i a hi
            cases i with
            | zero => exact (Option.some.inj (by simpa using hi)).symm
            | succ i =>
              refine ha (i + 1) a ?_
              cases hvs : s.cert.vals with
              | nil => simp [hvs] at hi
              | cons v vs => simpa [addrs, hvs] using hi
          refine .of_eq (own_sim (s := s.setCorrect 0) (fun a => ⟨a, 1⟩ :: s.cert.vals.tail)
            hlim hfull rfl rfl (by omega) hstore ?_
            rfl (.inl ⟨haddr, rfl⟩)) rfl rfl rfl
          simp only [addrs, List.length_map] at hlen
          simp only [List.length_cons, List.length_tail]
          omega

theorem isComplete_view : s.view.isComplete = s.isComplete := by
  have hc : s.view.cval = s.cval.map fun v => ⟨s.mem v.m, v.count⟩ := by
    unfold Certificate.cval cval
    cases hs : s.cert.c with
    | none => simp [view, hs]
    | some k => simp [view, hs, read_getElem]
  unfold Certificate.isComplete isComplete Certificate.numCorrect
  rw [hc, Option.map_map]
  rfl

theorem cvalue_view : s.view.cvalue = s.cval.map fun v => s.mem v.m := by
  unfold Certificate.cvalue Certificate.cval cval
  cases hs : s.cert.c with
  | none => simp [view, hs]
  | some k => simp [view, hs, read_getElem, Function.comp_def]

/-- **`mark_stale`** never stops, and does the same in the two builds. -/
theorem markStale_sim [DecidableEq T] (hinj : Function.Injective B.addr) (h : Placed E B s) :
    ∃ t, markStale s = some t ∧ s.view.markStale = some t.view ∧ Placed E B t := by
  unfold markStale Certificate.markStale
  rw [isComplete_view]
  cases hcomp : s.isComplete with
  | true => exact ⟨s, by simp, by simp, h⟩
  | false =>
    simp only [Bool.false_eq_true, if_false]
    cases hm : s.cert.mym with
    | none =>
      refine ⟨_, rfl, ?_, ?_, ?_, .inl ⟨?_, ?_⟩, ?_⟩ <;> simp [view, hm, addrs, read]
    | some a =>
      obtain ⟨⟨k, hc, hk⟩, hfull⟩ := h.mym a hm
      obtain ⟨v, hv, hva⟩ : ∃ v, s.cert.vals[k]? = some v ∧ v.m = a := by simpa [addrs] using hk
      obtain ⟨j, hj, hvm, hlt, -⟩ := h.correct hinj hc hv
      have hcval : s.cval = some v := by
        unfold cval
        rw [hc]
        exact hv
      have hmym : s.view.mym = some (s.mem a) := by simp [view, hm]
      rw [hmym, cvalue_view, hcval]
      simp only [Option.map_some, hva, if_true]
      refine ⟨_, rfl, ?_, ?_, ?_, .inr ⟨j, ?_, rfl, hj, hlt⟩, ?_⟩
      · simp [view, hm, read]
      · simp [addrs]
      · intro i hi
        obtain rfl : 0 = i := Option.some.inj hi
        simp [addrs]
      · simp [addrs, ← hvm, hva]
      · intro b hb
        obtain rfl : a = b := Option.some.inj hb
        exact ⟨⟨0, rfl, by simp [addrs]⟩, hfull⟩

/-- The block that `add` stores a message in, if it keeps it. -/
def target (B : Blocks A T) (m : T) (s : Held A T) : Option A :=
  match s.cert.c with
  | some _ => s.cert.correctId.map B.addr
  | none =>
    match Certificate.findMatch m s.read with
    | some (some i) => some (B.addr i)
    | some none => some (B.addr s.cert.vals.length)
    | none => none

/-! ## The memory that an operation leaves alone -/

section Memory

variable {a : A}

theorem persist_mem {i : Option Nat} {r : A × Held A T} (hr : persist B m i s = some r)
    (ha : ∀ j, i = some j → a ≠ B.addr j) :
    r.2.mem a = s.mem a := by
  simp only [persist, Option.bind_eq_bind, Option.bind_eq_some_iff,
    Option.ite_none_right_eq_some, Option.some.injEq] at hr
  obtain ⟨i, hi, -, rfl⟩ := hr
  exact Function.update_of_ne (ha i hi) _ _

theorem absorb_mem {i : Option Nat} (ht : absorb B m k v i s = some t)
    (ha : (!CertMsg.full (s.mem v.m) && CertMsg.full m) = true → ∀ j, i = some j → a ≠ B.addr j) :
    t.mem a = s.mem a := by
  unfold absorb at ht
  split at ht
  · rename_i hfull
    simp only [Option.bind_eq_bind, Option.bind_eq_some_iff, Option.some.injEq] at ht
    obtain ⟨r, hr, rfl⟩ := ht
    exact persist_mem hr (ha hfull)
  · obtain rfl := Option.some.inj ht
    rfl

/-- `add` writes to the block of the value that it keeps the message for. -/
theorem add_mem {verify : Bool} {r : Held A T × Bool} (hr : add E B m verify s = some r)
    (ha : s.view.keepsAdd E m verify = true → ∀ b, target B m s = some b → a ≠ b) :
    r.1.mem a = s.mem a := by
  have hrefuse : ∀ {r : Held A T × Bool},
    some (if verify then s.mark (CertMsg.id m) else s, false) = some r → r.1.mem a = s.mem a := by
    intro r hr
    obtain rfl := Option.some.inj hr
    cases verify <;> rfl
  have hb : s.view.bmap = s.cert.bmap := rfl
  have hcv : s.view.c = s.cert.c := rfl
  have hvv : s.view.vals = s.read := rfl
  unfold Certificate.keepsAdd at ha
  rw [hb, hcv, hvv] at ha
  unfold target at ha
  unfold add at hr
  dsimp only at hr
  split at hr
  · obtain rfl := Option.some.inj hr
    rfl
  rename_i hnew
  have hnew : E.isReplica (CertMsg.id m) && !s.cert.bmap.contains (CertMsg.id m) := by
    simpa using hnew
  cases hc : s.cert.c with
  | some k =>
    simp only [hc, Option.bind_eq_bind, Option.bind_eq_some_iff] at hr
    obtain ⟨v, hv, counts, hcnt, hr⟩ := hr
    split at hr
    · rename_i hboth
      obtain ⟨rfl, rfl⟩ : counts = true ∧ verify = true := by simpa using hboth
      simp only [Option.ite_none_left_eq_some, Option.bind_eq_some_iff, Option.some.injEq] at hr
      obtain ⟨hid, t, ht, rfl⟩ := hr
      refine absorb_mem (s := s.mark (CertMsg.id m)) ht fun hfull j hj => ?_
      have hcf : s.view.countsFor ⟨s.mem v.m, v.count⟩ m = some true := hcnt
      refine ha ?_ _ ?_
      · have hfull' : (!CertMsg.full (s.mem v.m) && CertMsg.full m) = true := hfull
        simp only [hc, hnew, bne_iff_ne.2 hid, read_getElem,
          hv, Option.map_some, Option.any_some, hcf, hfull', beq_self_eq_true,
          Bool.and_self]
      · simp [hc, hj]
    · exact hrefuse hr
  | none =>
    simp only [hc] at hr ha
    split at hr
    · exact hrefuse hr
    rename_i hver
    simp only [Bool.not_eq_true', Bool.not_eq_false] at hver
    simp only [Option.bind_eq_bind, Option.ite_none_left_eq_some, Option.bind_eq_some_iff] at hr
    obtain ⟨hid, o, hf, hr⟩ := hr
    simp only [hnew, hver, bne_iff_ne.2 hid, hf, Bool.and_self, Bool.true_and] at ha
    cases o with
    | some i =>
      simp only [Option.bind_eq_some_iff, Option.some.injEq] at hr
      obtain ⟨v, hv, t, ht, rfl⟩ := hr
      have hmem := absorb_mem (a := a) ht ?_
      · split at hmem <;> exact hmem
      · intro hfull j hj
        obtain rfl : i = j := Option.some.inj hj
        refine ha ?_ _ rfl
        have hfull' : (!CertMsg.full (s.mem v.m) && CertMsg.full m) = true := by
          split at hfull <;> exact hfull
        simp only [read_getElem, hv, Option.map_some, Option.any_some, hfull']
    | none =>
      dsimp only at hr
      split at hr
      · rename_i hroom
        simp only [Option.bind_eq_some_iff, Option.some.injEq] at hr
        obtain ⟨p, hp, rfl⟩ := hr
        refine persist_mem (s := s.mark (CertMsg.id m)) hp fun j hj => ?_
        obtain rfl := Option.some.inj hj
        have hlen : s.read.length = s.cert.vals.length := by simp [read]
        exact ha (by simp [hlen, hroom]) _ rfl
      · obtain rfl := Option.some.inj hr
        rfl

theorem own_mem {vals : A → List (MessageVal A)} {r : Held A T × Bool}
    (hr : own B m vals s = some r) (ha : ∀ j, a ≠ B.addr j) : r.1.mem a = s.mem a := by
  simp only [own, Option.bind_eq_bind, Option.bind_eq_some_iff, Option.some.injEq] at hr
  obtain ⟨p, hp, rfl⟩ := hr
  exact persist_mem hp fun j _ => ha j

theorem addMine_mem {r : Held A T × Bool} (hr : addMine E B m s = some r) (ha : ∀ j, a ≠ B.addr j) :
    r.1.mem a = s.mem a := by
  unfold addMine at hr
  split at hr
  · cases hr
  split at hr
  · simp only [Option.bind_eq_bind, Option.bind_eq_some_iff] at hr
    obtain ⟨v, -, b, -, hr⟩ := hr
    split at hr
    · exact own_mem hr ha
    · obtain rfl := Option.some.inj hr
      rfl
  · simp only [Option.bind_eq_bind, Option.bind_eq_some_iff] at hr
    obtain ⟨o, -, hr⟩ := hr
    cases o with
    | some i =>
      simp only [Option.bind_eq_some_iff] at hr
      obtain ⟨v, -, hr⟩ := hr
      exact own_mem (s := s.setCorrect i) hr ha
    | none => exact own_mem (s := s.setCorrect 0) hr ha

/-- The block is one of the certificate's. -/
theorem target_addr {b : A} (hb : target B m s = some b) : ∃ j, b = B.addr j := by
  unfold target at hb
  split at hb
  · obtain ⟨j, -, rfl⟩ := Option.map_eq_some_iff.1 hb
    exact ⟨j, rfl⟩
  split at hb
  · exact ⟨_, (Option.some.inj hb).symm⟩
  · exact ⟨_, (Option.some.inj hb).symm⟩
  · cases hb

end Memory

theorem markStale_mem (ht : markStale s = some t) : t.mem = s.mem := by
  unfold markStale at ht
  split at ht
  · obtain rfl := Option.some.inj ht
    rfl
  split at ht
  · split at ht
    · obtain rfl := Option.some.inj ht
      rfl
    · cases ht
  · obtain rfl := Option.some.inj ht
    rfl

end Held

/-! ## Runs of the two builds -/

open Certificate (Op)

/-- A message that a certificate of the logs stores in the agreement region. -/
class RegionMsg (T : Type) where
  slot : Nat → AgreementRegion.Slot

instance : RegionMsg Prepare where slot := .prepare

instance : RegionMsg Commit where slot := .commit

/-- The blocks for messages of type `T` in the slice of a sequence number. -/
def regionBlocks (P : Params) (T : Type) [RegionMsg T] : Blocks Nat (Sized T) where
  addr i := i
  limit := P.regionF + 1
  fits m := m.size ≤ AgreementRegion.blockSize P (RegionMsg.slot T 0)

section Runs

set_option linter.unusedSectionVars false

variable {T : Type} [CertMsg T] [DecidableEq T] (E : Env)

/-- An operation of a certificate that owns its messages. A principal does not verify its own
authenticator (`Prepare.cc:79`). -/
def certStep (h : Certificate T) : Op T → Option (Certificate T)
  | .add m verify => (h.add E m (verify && CertMsg.id m != E.id)).map Prod.fst
  | .addMine m => (h.addMine E m).map Prod.fst
  | .markStale => h.markStale
  | .clear => some h.clear
  | .cvalueClear => some h.cvalueClear.1

theorem certStep_complete {h t : Certificate T} {op : Op T} (ht : certStep E h op = some t) :
    t.complete = h.complete := by
  cases op with
  | add m verify =>
    simp only [certStep, Option.map_eq_some_iff] at ht
    obtain ⟨r, hr, rfl⟩ := ht
    rcases Certificate.add_cases hr with ⟨-, -, -, -, -,
      ⟨_, _, _, -, -, he, -⟩ | ⟨-, he⟩⟩ | ⟨-, he | he | he⟩
    all_goals rw [he]
    rfl
  | addMine m =>
    simp only [certStep, Option.map_eq_some_iff] at ht
    obtain ⟨r, hr, rfl⟩ := ht
    rcases Certificate.addMine_cases hr with ⟨-, -,
      ⟨-, bmap, -, ⟨_, _, -, -, -, he⟩ | ⟨-, he⟩⟩ | ⟨-, he⟩⟩ <;> rw [he]
  | markStale =>
    rcases Certificate.markStale_cases ht with ⟨-, he⟩ | ⟨-, ⟨_, -, he⟩ | ⟨-, he⟩⟩ <;> rw [he]
  | clear =>
    obtain rfl := Option.some.inj ht
    rfl
  | cvalueClear =>
    obtain rfl := Option.some.inj ht
    unfold Certificate.cvalueClear
    split <;> rfl

/-- The message that an operation keeps. -/
def kept (h : Certificate T) : Op T → Option T
  | .add m verify => if h.keepsAdd E m (verify && CertMsg.id m != E.id) then some m else none
  | .addMine m => if h.keepsOwn E m then some m else none
  | _ => none

variable {A : Type} [DecidableEq A] (B : Blocks A T)

/-- The same operation of a certificate whose messages are in blocks. -/
def staticStep (s : Held A T) : Op T → Option (Held A T)
  | .add m verify => (s.add E B m (verify && CertMsg.id m != E.id)).map Prod.fst
  | .addMine m => (s.addMine E B m).map Prod.fst
  | .markStale => s.markStale
  | .clear => some s.clear
  | .cvalueClear => some s.cvalueClear.1

/-- The static certificate has the values, counts and own message of the heap one, each value in a
block of its own. -/
structure Represents (s : Held A T) (h : Certificate T) : Prop where
  vals : s.read = h.vals
  correct : s.cert.c = h.c
  complete : s.cert.complete = h.complete
  mine : s.cert.mym.map s.mem = h.mine
  cvalue : (s.cval.map fun v => s.mem v.m) = h.cvalue
  distinct : s.addrs.Nodup

/-- The two certificates differ in the bit of the replica itself only, which `add_mine` sets in the
static build. -/
def Like (E : Env) (h h' : Certificate T) : Prop :=
  ∃ bmap, h' = { h with bmap } ∧ ∀ i, (i ∈ h.bmap → i ∈ bmap) ∧ (i ∈ bmap → i ∈ h.bmap ∨ i = E.id)

variable {E B} {h h' : Certificate T} {s : Held A T} {m : T}

theorem Like.contains (hl : Like E h h') (hid : CertMsg.id m ≠ E.id) :
    h'.bmap.contains (CertMsg.id m) = h.bmap.contains (CertMsg.id m) := by
  obtain ⟨bmap, rfl, hb⟩ := hl
  have : CertMsg.id m ∈ bmap ↔ CertMsg.id m ∈ h.bmap :=
    ⟨fun hm => ((hb _).2 hm).resolve_right hid, (hb _).1⟩
  simp [this]

theorem Like.mark (hl : Like E h h') (id : Nat) :
    Like E { h with bmap := id :: h.bmap } { h' with bmap := id :: h'.bmap } := by
  obtain ⟨bmap, rfl, hb⟩ := hl
  refine ⟨_, rfl, fun i => ?_⟩
  have := hb i
  simp only [List.mem_cons]
  tauto

theorem Like.markOwn (hl : Like E h h') : Like E h { h' with bmap := E.id :: h'.bmap } := by
  obtain ⟨bmap, rfl, hb⟩ := hl
  refine ⟨_, rfl, fun i => ?_⟩
  have := hb i
  simp only [List.mem_cons]
  tauto

theorem Like.setVals (hl : Like E h h') (vals : List (MessageVal T)) (c : Option Nat)
    (mym : Option T) :
    Like E { h with vals, c, mym } { h' with vals, c, mym } := by
  obtain ⟨bmap, rfl, hb⟩ := hl
  exact ⟨bmap, rfl, hb⟩

theorem Like.clear (hl : Like E h h') : Like E h.clear h'.clear := by
  obtain ⟨bmap, rfl, -⟩ := hl
  refine ⟨[], rfl, ?_⟩
  simp [Certificate.clear]

/-- The outcomes in the two builds. -/
inductive LikeResult (E : Env) :
    Option (Certificate T × Bool) → Option (Certificate T × Bool) → Prop
  | stop : LikeResult E none none
  | same {h h' : Certificate T} (b : Bool) : Like E h h' → LikeResult E (some (h, b)) (some (h', b))

theorem LikeResult.right {x y : Option (Certificate T × Bool)} {r : Certificate T × Bool}
    (hres : LikeResult E x y) (hx : x = some r) :
    ∃ r', y = some r' ∧ Like E r.1 r'.1 := by
  subst hx
  cases hres with
  | same b hlike => exact ⟨_, rfl, hlike⟩

theorem LikeResult.left {x y : Option (Certificate T × Bool)} {r : Certificate T × Bool}
    (hres : LikeResult E x y) (hy : y = some r) :
    ∃ r', x = some r' := by
  subst hy
  cases hres with
  | same b hlike => exact ⟨_, rfl⟩

theorem Like.refused (hl : Like E h h') (id : Nat) (verify : Bool) :
    LikeResult E (some (if verify then { h with bmap := id :: h.bmap } else h, false))
      (some (if verify then { h' with bmap := id :: h'.bmap } else h', false)) := by
  cases verify with
  | false => exact .same false hl
  | true => exact .same false (hl.mark id)

/-- The fields that `Like` does not touch. -/
theorem Like.fields (hl : Like E h h') :
    h'.vals = h.vals ∧ h'.c = h.c ∧ h'.complete = h.complete ∧ h'.mym = h.mym := by
  obtain ⟨bmap, rfl, -⟩ := hl
  exact ⟨rfl, rfl, rfl, rfl⟩

/-- `add` of a message of another replica. -/
theorem Like.add_other (hl : Like E h h') (hid : CertMsg.id m ≠ E.id) (verify : Bool) :
    LikeResult E (h.add { E with staticLog := false } m verify)
      (h'.add { E with staticLog := true } m verify) := by
  have hb := hl.contains hid
  obtain ⟨hv, hc, hcomp, hmym⟩ := hl.fields
  have hcount : ∀ v, h'.countsFor v m = h.countsFor v m := by
    intro v
    unfold Certificate.countsFor
    rw [hcomp]
  have hrep : ∀ b, Env.isReplica { E with staticLog := b } (CertMsg.id m) =
    E.isReplica (CertMsg.id m) := fun _ => rfl
  have hset := fun vals c => (hl.mark (CertMsg.id m)).setVals vals c h.mym
  unfold Certificate.add
  dsimp only
  simp only [hb, hc, hv, hrep]
  cases hnew : E.isReplica (CertMsg.id m) && !h.bmap.contains (CertMsg.id m) with
  | false => exact .same false hl
  | true =>
    simp only [Bool.not_true, Bool.false_eq_true, if_false]
    cases hk : h.c with
    | some k =>
      simp only [Option.bind_eq_bind]
      cases hvk : h.vals[k]? with
      | none => exact .stop
      | some v =>
        simp only [Option.bind_some, hcount]
        cases hcnt : h.countsFor v m with
        | none => exact .stop
        | some counts =>
          simp only [Option.bind_some, if_neg hid]
          cases counts && verify with
          | false =>
            have := hl.refused (CertMsg.id m) verify
            rw [hc, hv, hk] at this
            exact this
          | true =>
            have := hset (h.vals.set k (Certificate.MessageVal.absorb v m)) (some k)
            rw [hmym] at this ⊢
            exact .same true this
    | none =>
      cases verify with
      | false =>
        have := hl.refused (CertMsg.id m) false
        rw [hc, hv, hk] at this
        exact this
      | true =>
        simp only [Bool.not_true, Bool.false_eq_true, if_false, if_neg hid, Option.bind_eq_bind]
        cases hf : Certificate.findMatch m h.vals with
        | none => exact .stop
        | some o =>
          simp only [Option.bind_some]
          cases o with
          | some i =>
            dsimp only
            cases hvi : h.vals[i]? with
            | none => exact .stop
            | some v =>
              have := hset (h.vals.set i (Certificate.MessageVal.absorb v m))
                (if E.f + 1 ≤ v.count + 1 then some i else none)
              rw [hmym] at this ⊢
              exact .same true this
          | none =>
            by_cases hroom : h.vals.length < E.f + 1
            · simp only [if_pos hroom]
              have := hset (h.vals ++ [⟨m, 1⟩]) none
              rw [hmym] at this ⊢
              exact .same true this
            · simp only [if_neg hroom]
              exact .same false hl.clear

/-- The replica's own message never verifies: `add` refuses it, or stops at the assertion of
`match`. -/
theorem Certificate.add_unverified {r : Certificate T × Bool} (hr : h.add E m false = some r) :
    r = (h, false) := by
  unfold Certificate.add at hr
  dsimp only at hr
  simp only [Bool.and_false, Bool.false_eq_true, if_false,
    Bool.not_false, if_true, Option.bind_eq_bind] at hr
  split at hr
  · exact (Option.some.inj hr).symm
  split at hr
  · simp only [Option.bind_eq_some_iff, Option.some.injEq] at hr
    obtain ⟨-, -, -, -, rfl⟩ := hr
    rfl
  · exact (Option.some.inj hr).symm

theorem Like.add_own (hl : Like E h h') {r : Certificate T × Bool}
    (hr : h.add { E with staticLog := false } m false = some r) :
    ∃ r', h'.add { E with staticLog := true } m false = some r' ∧ Like E r.1 r'.1 := by
  rw [Certificate.add_unverified hr]
  obtain ⟨bmap, rfl, hb⟩ := hl
  refine ⟨({ h with bmap }, false), ?_, bmap, rfl, hb⟩
  cases hold : bmap.contains (CertMsg.id m) with
  | true =>
    unfold Certificate.add
    simp [List.contains_iff_mem.1 hold]
  | false =>
    have hnot : CertMsg.id m ∉ h.bmap := by
      intro hm
      rw [List.contains_iff_mem.2 ((hb _).1 hm)] at hold
      cases hold
    have hnot' : CertMsg.id m ∉ bmap := by
      intro hm
      rw [List.contains_iff_mem.2 hm] at hold
      cases hold
    unfold Certificate.add at hr ⊢
    simp only [Env.isReplica, List.contains_eq_mem, hnot,
      hnot', decide_false, Bool.not_false, Bool.and_true, Bool.and_false,
      Bool.false_eq_true, if_false, if_true, Option.bind_eq_bind] at hr ⊢
    split at hr
    · rename_i hrep
      rw [if_pos hrep]
    · rename_i hrep
      rw [if_neg hrep]
      cases hk : h.c with
      | none => simp
      | some k =>
        simp only [hk, Option.bind_eq_some_iff] at hr
        obtain ⟨v, hv, cnt, hcnt, -⟩ := hr
        have hcnt' : Certificate.countsFor { h with bmap } v m = some cnt := hcnt
        rw [hk] at hcnt'
        simp [hv, hcnt']

/-- `add_mine` in the two builds. -/
theorem Like.addMine (hl : Like E h h') :
    LikeResult E (h.addMine { E with staticLog := false } m)
      (h'.addMine { E with staticLog := true } m) := by
  obtain ⟨hv, hc, hcomp, hmym⟩ := hl.fields
  unfold Certificate.addMine
  simp only [hc, hv, Bool.false_eq_true, if_false, if_true, Option.bind_eq_bind]
  cases hown : CertMsg.id m == E.id && CertMsg.full m with
  | false => exact .stop
  | true =>
    have hid : CertMsg.id m = E.id := by
      simp only [Bool.and_eq_true, beq_iff_eq] at hown
      exact hown.1
    have hset := fun vals c => hl.markOwn.setVals vals c (some m)
    simp only [Bool.not_true, Bool.false_eq_true, if_false, hid]
    cases hk : h.c with
    | some k =>
      simp only
      cases hvk : h.vals[k]? with
      | none => exact .stop
      | some v =>
        simp only [Option.bind_some]
        cases hm : CertMsg.matchMsg v.m m with
        | none => exact .stop
        | some b =>
          cases b with
          | false => exact .same false hl
          | true => exact .same true (hset (h.vals.set k ⟨m, v.count + 1⟩) (some k))
    | none =>
      cases hf : Certificate.findMatch m h.vals with
      | none => exact .stop
      | some o =>
        simp only [Option.bind_some]
        cases o with
        | some i =>
          dsimp only
          cases hvi : h.vals[i]? with
          | none => exact .stop
          | some v => exact .same true (hset (h.vals.set i ⟨m, v.count + 1⟩) (some i))
        | none => exact .same true (hset (⟨m, 1⟩ :: h.vals.tail) (some 0))

theorem Like.keepsAdd (hl : Like E h h') (verify : Bool) (hid : CertMsg.id m ≠ E.id) :
    h'.keepsAdd E m verify = h.keepsAdd E m verify := by
  have hb := hl.contains hid
  obtain ⟨bmap, rfl, -⟩ := hl
  unfold Certificate.keepsAdd
  rw [hb]
  rfl

theorem Like.kept (hl : Like E h h') (op : Op T) : kept E h' op = kept E h op := by
  cases op with
  | add m verify =>
    by_cases hid : CertMsg.id m = E.id
    · simp [TinyBFT.kept, Certificate.keepsAdd, hid]
    · simp only [TinyBFT.kept, hl.keepsAdd _ hid]
  | addMine m =>
    obtain ⟨bmap, rfl, -⟩ := hl
    rfl
  | markStale | clear | cvalueClear => rfl

theorem Like.markStale (hl : Like E h h') {t : Certificate T} (ht : h.markStale = some t) :
    ∃ t', h'.markStale = some t' ∧ Like E t t' := by
  obtain ⟨bmap, rfl, hb⟩ := hl
  have hcomp : Certificate.isComplete { h with bmap } = h.isComplete := rfl
  have hcv : Certificate.cvalue { h with bmap } = h.cvalue := rfl
  unfold Certificate.markStale at ht ⊢
  rw [hcomp, hcv]
  split at ht
  · rename_i hc
    rw [if_pos hc]
    obtain rfl := Option.some.inj ht
    exact ⟨_, rfl, bmap, rfl, hb⟩
  · rename_i hc
    rw [if_neg hc]
    dsimp only
    split at ht
    · split at ht
      · rename_i hm
        obtain rfl := Option.some.inj ht
        exact ⟨_, if_pos hm, [], rfl, fun i => by simp⟩
      · cases ht
    · obtain rfl := Option.some.inj ht
      exact ⟨_, rfl, [], rfl, fun i => by simp⟩

theorem Like.cvalueClear (hl : Like E h h') : Like E h.cvalueClear.1 h'.cvalueClear.1 := by
  have hcl := hl.clear
  obtain ⟨bmap, rfl, hb⟩ := hl
  unfold Certificate.cvalueClear
  dsimp only
  split
  · exact ⟨bmap, rfl, hb⟩
  · exact hcl

/-- One operation on certificates that are alike: where the heap build goes on the other does, with
the same outcome. -/
theorem Like.step (hl : Like E h h') (op : Op T) {t : Certificate T}
    (ht : certStep { E with staticLog := false } h op = some t) :
    ∃ t', certStep { E with staticLog := true } h' op = some t' ∧ Like E t t' := by
  cases op with
  | add m verify =>
    simp only [certStep, Option.map_eq_some_iff] at ht ⊢
    obtain ⟨r, hr, rfl⟩ := ht
    by_cases hid : CertMsg.id m = E.id
    · simp only [hid, bne_self_eq_false, Bool.and_false] at hr ⊢
      obtain ⟨r', hr', hlike⟩ := hl.add_own hr
      exact ⟨_, ⟨r', hr', rfl⟩, hlike⟩
    · obtain ⟨r', hr', hlike⟩ := (hl.add_other hid (verify && CertMsg.id m != E.id)).right hr
      exact ⟨_, ⟨r', hr', rfl⟩, hlike⟩
  | addMine m =>
    simp only [certStep, Option.map_eq_some_iff] at ht ⊢
    obtain ⟨r, hr, rfl⟩ := ht
    obtain ⟨r', hr', hlike⟩ := hl.addMine.right hr
    exact ⟨_, ⟨r', hr', rfl⟩, hlike⟩
  | markStale => exact hl.markStale ht
  | clear =>
    obtain rfl := Option.some.inj ht
    exact ⟨_, rfl, hl.clear⟩
  | cvalueClear =>
    obtain rfl := Option.some.inj ht
    exact ⟨_, rfl, hl.cvalueClear⟩

/-- Where the other build goes on the heap build does, with the same outcome, if the message is not
the replica's own. -/
theorem Like.step_back (hl : Like E h h') (op : Op T) {t' : Certificate T}
    (hother : ∀ m verify, op = .add m verify → CertMsg.id m ≠ E.id)
    (ht : certStep { E with staticLog := true } h' op = some t') :
    ∃ t, certStep { E with staticLog := false } h op = some t ∧ Like E t t' := by
  have hboth : ∀ {t}, certStep { E with staticLog := false } h op = some t →
      ∃ t, certStep { E with staticLog := false } h op = some t ∧ Like E t t' := by
    intro t hs
    obtain ⟨u, hu, hlike⟩ := hl.step op hs
    rw [ht] at hu
    obtain rfl := Option.some.inj hu
    exact ⟨t, hs, hlike⟩
  cases op with
  | add m verify =>
    simp only [certStep, Option.map_eq_some_iff] at ht
    obtain ⟨r, hr, -⟩ := ht
    obtain ⟨r', hr'⟩ :=
      (hl.add_other (hother m verify rfl) (verify && CertMsg.id m != E.id)).left hr
    exact hboth (congrArg (Option.map Prod.fst) hr')
  | addMine m =>
    simp only [certStep, Option.map_eq_some_iff] at ht
    obtain ⟨r, hr, -⟩ := ht
    obtain ⟨r', hr'⟩ := hl.addMine.left hr
    exact hboth (congrArg (Option.map Prod.fst) hr')
  | markStale =>
    have hsome : ∃ t, h.markStale = some t := by
      obtain ⟨bmap, rfl, -⟩ := hl
      have ht : Certificate.markStale { h with bmap } = some t' := ht
      unfold Certificate.markStale at ht ⊢
      split at ht
      · rename_i hc
        exact ⟨h, if_pos hc⟩
      · rename_i hc
        rw [if_neg (show ¬ h.isComplete = true from hc)]
        dsimp only at ht
        split at ht
        · split at ht
          · rename_i hm
            exact ⟨_, if_pos hm⟩
          · cases ht
        · exact ⟨_, rfl⟩
    obtain ⟨t, hs⟩ := hsome
    exact hboth hs
  | clear => exact hboth rfl
  | cvalueClear => exact hboth rfl

/-- An operation that keeps a message does not stop in the heap build if it does not in the
other. -/
theorem Like.goes_on (hl : Like E h h') {op : Op T} (hk : TinyBFT.kept E h op = some m)
    {t' : Certificate T} (ht : certStep { E with staticLog := true } h' op = some t') :
    ∃ t, certStep { E with staticLog := false } h op = some t := by
  cases op with
  | add m verify =>
    have hid : CertMsg.id m ≠ E.id := by
      intro hid
      simp [TinyBFT.kept, Certificate.keepsAdd, hid] at hk
    simp only [certStep, Option.map_eq_some_iff] at ht ⊢
    obtain ⟨r, hr, -⟩ := ht
    obtain ⟨r', hr'⟩ := (hl.add_other hid (verify && CertMsg.id m != E.id)).left hr
    exact ⟨_, r', hr', rfl⟩
  | addMine m =>
    simp only [certStep, Option.map_eq_some_iff] at ht ⊢
    obtain ⟨r, hr, -⟩ := ht
    obtain ⟨r', hr'⟩ := hl.addMine.left hr
    exact ⟨_, r', hr', rfl⟩
  | markStale | clear | cvalueClear => cases hk

theorem Held.Sim.goes_on {keeps : Bool} {x : Option (Held A T × Bool)}
    {y : Option (Certificate T × Bool)} (hs : Held.Sim E B m keeps x y)
    (hfit : keeps = true → B.fits m = true) {r : Certificate T × Bool} (hy : y = some r) :
    ∃ t, x = some t ∧ t.1.view = r.1 ∧ t.1.Placed E B := by
  cases hs with
  | stop => cases hy
  | same t b hp =>
    obtain rfl := Option.some.inj hy
    exact ⟨_, rfl, rfl, hp⟩
  | overrun r hk hbig =>
    rw [hfit hk] at hbig
    cases hbig

theorem Held.Sim.of_some {keeps : Bool} {x : Option (Held A T × Bool)}
    {y : Option (Certificate T × Bool)} (hs : Held.Sim E B m keeps x y) {r : Held A T × Bool}
    (hx : x = some r) : y = some (r.1.view, r.2) ∧ r.1.Placed E B := by
  cases hs with
  | stop => cases hx
  | same t b hp =>
    obtain rfl := Option.some.inj hx
    exact ⟨rfl, hp⟩
  | overrun => cases hx

theorem Held.Sim.overruns {x : Option (Held A T × Bool)} {y : Option (Certificate T × Bool)}
    (hs : Held.Sim E B m true x y) (hbig : B.fits m = false) : x = none ∧ ∃ r, y = some r := by
  generalize hk : true = keeps at hs
  cases hs with
  | stop h =>
    rw [← hk] at h
    cases h
  | same t b _ hfit =>
    rw [hfit hk.symm] at hbig
    cases hbig
  | overrun r _ _ => exact ⟨rfl, r, rfl⟩

section Steps

variable (hinj : Function.Injective B.addr) (hlim : E.f + 1 ≤ B.limit) (hE : E.staticLog = true)
    (hp : s.Placed E B)
include hinj hlim hE hp

/-- Where the message that is kept fits its block, the static build does what the other does. -/
theorem staticStep_sim {op : Op T} (hfit : ∀ m, kept E s.view op = some m → B.fits m = true)
    {h : Certificate T} (hh : certStep E s.view op = some h) :
    ∃ t, staticStep E B s op = some t ∧ t.view = h ∧ t.Placed E B := by
  cases op with
  | add m verify =>
    simp only [certStep, staticStep, Option.map_eq_some_iff] at hh ⊢
    obtain ⟨r, hr, rfl⟩ := hh
    have hsim := Held.add_sim (m := m) hinj hlim hp (verify && CertMsg.id m != E.id)
    obtain ⟨t, ht, hview, hplaced⟩ := hsim.goes_on (fun hk => hfit m (if_pos hk)) hr
    exact ⟨t.1, ⟨t, ht, rfl⟩, hview, hplaced⟩
  | addMine m =>
    simp only [certStep, staticStep, Option.map_eq_some_iff] at hh ⊢
    obtain ⟨r, hr, rfl⟩ := hh
    have hsim := Held.addMine_sim (m := m) hinj hlim hE hp
    obtain ⟨t, ht, hview, hplaced⟩ := hsim.goes_on (fun hk => hfit m (if_pos hk)) hr
    exact ⟨t.1, ⟨t, ht, rfl⟩, hview, hplaced⟩
  | markStale =>
    obtain ⟨t, ht, hview, hplaced⟩ := Held.markStale_sim hinj hp
    refine ⟨t, ht, ?_, hplaced⟩
    rw [show s.view.markStale = some h from hh] at hview
    exact (Option.some.inj hview).symm
  | clear =>
    obtain rfl := Option.some.inj hh
    exact ⟨s.clear, rfl, rfl, Held.placed_clear⟩
  | cvalueClear =>
    obtain rfl := Option.some.inj hh
    refine ⟨s.cvalueClear.1, rfl, ?_, ?_⟩
    · unfold Held.cvalueClear Certificate.cvalueClear
      have hc : s.view.c = s.cert.c := rfl
      rw [hc]
      cases s.cert.c <;> rfl
    · unfold Held.cvalueClear
      split
      · exact hp
      · exact Held.placed_clear

/-- Where it does not fit, the static build writes past the block, and the other goes on. -/
theorem staticStep_overrun {op : Op T} (hk : kept E s.view op = some m) (hbig : B.fits m = false) :
    staticStep E B s op = none ∧ ∃ h, certStep E s.view op = some h := by
  cases op with
  | add m' verify =>
    simp only [kept, Option.ite_none_right_eq_some, Option.some.injEq] at hk
    obtain ⟨hkeep, rfl⟩ := hk
    have hsim := Held.add_sim (m := m') hinj hlim hp (verify && CertMsg.id m' != E.id)
    rw [hkeep] at hsim
    obtain ⟨hx, r, hr⟩ := hsim.overruns hbig
    simp [staticStep, certStep, hx, hr]
  | addMine m' =>
    simp only [kept, Option.ite_none_right_eq_some, Option.some.injEq] at hk
    obtain ⟨hkeep, rfl⟩ := hk
    have hsim := Held.addMine_sim (m := m') hinj hlim hE hp
    rw [hkeep] at hsim
    obtain ⟨hx, r, hr⟩ := hsim.overruns hbig
    simp [staticStep, certStep, hx, hr]
  | markStale | clear | cvalueClear => cases hk

/-- Where the static build goes on, it does what the other does. -/
theorem staticStep_view {op : Op T} {t : Held A T} (ht : staticStep E B s op = some t) :
    certStep E s.view op = some t.view ∧ t.Placed E B := by
  cases op with
  | add m verify =>
    simp only [certStep, staticStep, Option.map_eq_some_iff] at ht ⊢
    obtain ⟨r, hr, rfl⟩ := ht
    obtain ⟨hview, hplaced⟩ := (Held.add_sim (m := m) hinj hlim hp _).of_some hr
    exact ⟨⟨_, hview, rfl⟩, hplaced⟩
  | addMine m =>
    simp only [certStep, staticStep, Option.map_eq_some_iff] at ht ⊢
    obtain ⟨r, hr, rfl⟩ := ht
    obtain ⟨hview, hplaced⟩ := (Held.addMine_sim (m := m) hinj hlim hE hp).of_some hr
    exact ⟨⟨_, hview, rfl⟩, hplaced⟩
  | markStale =>
    obtain ⟨t', ht', hview, hplaced⟩ := Held.markStale_sim hinj hp
    rw [show s.markStale = some t from ht] at ht'
    obtain rfl := Option.some.inj ht'
    exact ⟨hview, hplaced⟩
  | clear =>
    obtain rfl := Option.some.inj ht
    exact ⟨rfl, Held.placed_clear⟩
  | cvalueClear =>
    obtain rfl := Option.some.inj ht
    have hc : s.view.c = s.cert.c := rfl
    unfold certStep Held.cvalueClear Certificate.cvalueClear
    rw [hc]
    cases s.cert.c with
    | none => exact ⟨rfl, hp⟩
    | some k => exact ⟨rfl, Held.placed_clear⟩

end Steps

/-- An operation writes to the blocks of its certificate only. -/
theorem staticStep_mem {op : Op T} {t : Held A T} (ht : staticStep E B s op = some t) {a : A}
    (ha : ∀ i, a ≠ B.addr i) :
    t.mem a = s.mem a := by
  cases op with
  | add m verify =>
    simp only [staticStep, Option.map_eq_some_iff] at ht
    obtain ⟨r, hr, rfl⟩ := ht
    refine Held.add_mem hr fun _ b hb => ?_
    obtain ⟨j, rfl⟩ := Held.target_addr hb
    exact ha j
  | addMine m =>
    simp only [staticStep, Option.map_eq_some_iff] at ht
    obtain ⟨r, hr, rfl⟩ := ht
    exact Held.addMine_mem hr ha
  | markStale => exact Held.markStale_mem ht ▸ rfl
  | clear =>
    obtain rfl := Option.some.inj ht
    rfl
  | cvalueClear =>
    obtain rfl := Option.some.inj ht
    unfold Held.cvalueClear
    split <;> rfl

/-- Values in blocks of their own are distinct blocks. -/
theorem Held.Placed.nodup (hinj : Function.Injective B.addr) (hp : s.Placed E B) :
    s.addrs.Nodup := by
  rcases hp.places with ⟨ha, -⟩ | ⟨j, ha, -⟩
  · rw [List.nodup_iff_getElem?_ne_getElem?]
    intro i j hij hj he
    rw [List.getElem?_eq_getElem hj] at he
    have hi := ha i _ he
    have hj := ha j _ (List.getElem?_eq_getElem hj)
    rw [hi] at hj
    exact absurd (hinj hj) (by omega)
  · rw [ha]
    exact List.nodup_singleton _

theorem Like.represents {E' : Env} (hinj : Function.Injective B.addr) (hl : Like E h s.view)
    (hp : s.Placed E' B) : Represents s h := by
  obtain ⟨hv, hc, hcomp, hmym⟩ := hl.fields
  refine ⟨hv, hc, hcomp, hmym, ?_, hp.nodup hinj⟩
  rw [← Held.cvalue_view]
  unfold Certificate.cvalue Certificate.cval
  rw [hv, hc]

/-- Runs of the two builds, from certificates that are alike. -/
theorem static_run (hinj : Function.Injective B.addr) (hlim : E.f + 1 ≤ B.limit)
    (ops : List (Op T)) :
    ∀ {h : Certificate T} {s : Held A T}, Like E h s.view →
      s.Placed { E with staticLog := true } B →
      ((∀ as, as <+: ops → ∀ h', Run.run (certStep { E with staticLog := false }) h as = some h' →
          ∃ s', Run.run (staticStep { E with staticLog := true } B) s as = some s' ∧
            Represents s' h') ↔
        Run.Meets (certStep { E with staticLog := false }) (fun h op => ∀ m,
          kept E h op = some m → B.fits m = true) h ops) := by
  induction ops with
  | nil =>
    intro h s hl hp
    refine ⟨fun _ => trivial, fun _ as has h' hr => ?_⟩
    obtain rfl := List.prefix_nil.1 has
    obtain rfl := Option.some.inj hr
    exact ⟨s, rfl, hl.represents hinj hp⟩
  | cons op ops ih =>
    intro h s hl hp
    have hkept : ∀ {m}, kept E h op = some m →
      kept { E with staticLog := true } s.view op = some m := by
      intro m hk
      rw [← hl.kept op] at hk
      exact hk
    -- one operation that meets the condition
    have hstep : (∀ m, kept E h op = some m → B.fits m = true) → ∀ t,
      certStep { E with staticLog := false } h op = some t →
        ∃ u, staticStep { E with staticLog := true } B s op = some u ∧
          Like E t u.view ∧ u.Placed { E with staticLog := true } B := by
      intro hfit t ht
      obtain ⟨t', ht', hlike⟩ := hl.step op ht
      obtain ⟨u, hu, rfl, hplaced⟩ := staticStep_sim (E := { E with staticLog := true })
        hinj hlim rfl hp (fun m hk => hfit m (by rw [← hl.kept op]; exact hk)) ht'
      exact ⟨u, hu, hlike, hplaced⟩
    constructor
    · intro hall
      have hfit : ∀ m, kept E h op = some m → B.fits m = true := by
        intro m hk
        by_contra hbig
        obtain ⟨hnone, t', ht'⟩ := staticStep_overrun (E := { E with staticLog := true })
          hinj hlim rfl hp (hkept hk) (Bool.not_eq_true _ ▸ hbig)
        obtain ⟨t, ht⟩ := hl.goes_on hk ht'
        obtain ⟨s', hs', -⟩ := hall [op] (by simp) t (Run.run_cons.2 ⟨t, ht, rfl⟩)
        obtain ⟨u, hu, -⟩ := Run.run_cons.1 hs'
        rw [hnone] at hu
        cases hu
      refine ⟨hfit, fun t ht => ?_⟩
      obtain ⟨u, hu, hlike, hplaced⟩ := hstep hfit t ht
      refine (ih hlike hplaced).1 fun as has h' hr => ?_
      obtain ⟨s', hs', hrep⟩ := hall (op :: as) (by simpa using has) h' (Run.run_cons.2 ⟨t, ht, hr⟩)
      obtain ⟨u', hu', hs'⟩ := Run.run_cons.1 hs'
      rw [hu] at hu'
      obtain rfl := Option.some.inj hu'
      exact ⟨s', hs', hrep⟩
    · rintro ⟨hfit, hrest⟩ as has h' hr
      cases as with
      | nil =>
        obtain rfl := Option.some.inj hr
        exact ⟨s, rfl, hl.represents hinj hp⟩
      | cons op' as =>
        obtain ⟨rfl, htail⟩ := List.cons_prefix_cons.1 has
        obtain ⟨t, ht, hr⟩ := Run.run_cons.1 hr
        obtain ⟨u, hu, hlike, hplaced⟩ := hstep hfit t ht
        obtain ⟨s', hs', hrep⟩ := (ih hlike hplaced).2 (hrest t ht) as htail h' hr
        exact ⟨s', Run.run_cons.2 ⟨u, hu, hs'⟩, hrep⟩

/-- **The static build is the heap build** exactly in the runs in which each message that an
operation keeps is no longer than the block for it. -/
theorem static_heap_iff (cfg : Cfg) (id comp : Nat) [RegionMsg T] (mem : Nat → Sized T)
    (ops : List (Op (Sized T))) :
    (∀ as, as <+: ops → ∀ h,
        Run.run (certStep { cfg.env id with staticLog := false })
          (Certificate.new (cfg.env id) comp) as = some h →
        ∃ s, Run.run (staticStep { cfg.env id with staticLog := true } (regionBlocks cfg.P T))
          (Held.new (cfg.env id) comp mem) as =
          some s ∧ Represents s h) ↔
      Run.Meets (certStep { cfg.env id with staticLog := false })
        (fun h op => ∀ m, kept (cfg.env id) h op = some m →
            m.size ≤ AgreementRegion.blockSize cfg.P (RegionMsg.slot T 0))
        (Certificate.new (cfg.env id) comp) ops := by
  have hlim : (cfg.env id).f + 1 ≤ (regionBlocks cfg.P T).limit := by
    have := cfg.n_le
    simp only [Cfg.env, regionBlocks, Params.regionF]
    omega
  have hnew : Like (cfg.env id) (Certificate.new (cfg.env id) comp)
    (Held.new (cfg.env id) comp mem).view := ⟨[], rfl, by simp [Certificate.new]⟩
  have hplaced : (Held.new (cfg.env id) comp mem).Placed
    { cfg.env id with staticLog := true } (regionBlocks cfg.P T) := by
    refine ⟨?_, ?_, .inl ⟨?_, ?_⟩, ?_⟩ <;> simp [Held.new, Held.addrs]
  have hiff := static_run (B := regionBlocks cfg.P T) (E := cfg.env id)
    (fun _ _ he => he) hlim ops hnew hplaced
  simpa [regionBlocks] using hiff

/-- A prepare of 1000 bytes, for a block of 160. -/
def longPrepare : Sized Prepare := ⟨⟨0, 1, 5, 1, false⟩, 1000⟩

/-- Its authenticator verifies, and the static build copies 1000 bytes into the block. -/
theorem longPrepare_overruns :
    ¬ ∀ as, as <+: [Op.add longPrepare true] → ∀ h,
        Run.run (certStep { Replica.fourReplicas.env 0 with staticLog := false })
          (Certificate.new (Replica.fourReplicas.env 0) 0) as =
          some h →
        ∃ s, Run.run (staticStep { Replica.fourReplicas.env 0 with staticLog := true }
            (regionBlocks Replica.fourReplicas.P Prepare))
          (Held.new (Replica.fourReplicas.env 0) 0 fun _ => longPrepare) as = some s ∧
            Represents s h := by
  intro hall
  obtain ⟨s, hs, -⟩ :=
    hall _ (List.prefix_refl _) ⟨[1], [⟨longPrepare, 1⟩], none, 3, none⟩ (by decide)
  have hnone : Run.run (staticStep { Replica.fourReplicas.env 0 with staticLog := true }
      (regionBlocks Replica.fourReplicas.P Prepare)) (Held.new (Replica.fourReplicas.env 0) 0
        fun _ => longPrepare)
      [Op.add longPrepare true] = none := rfl
  rw [hnone] at hs
  cases hs

end Runs

end TinyBFT
