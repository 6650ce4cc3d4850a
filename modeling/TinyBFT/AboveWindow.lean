import TinyBFT.CheckpointRegion

/-!
# Checkpoints above the window (`Set.t`, `checkpoint_region.cc`, `Replica.cc`)

A stable checkpoint that is above the window, or that shows the replica to be late, is kept in
`sset`, one for each replica. When the window moves, `mark_stable` puts the ones that it reaches
into their certificates. The heap build keeps the message itself. The static build copies it to the
slot of its sender, and `sset` points to the slot.

| here | there |
| --- | --- |
| `SSet`             | `Set<Checkpoint>`: `elems`, without `cur_size` |
| `Build`            | what differs between the builds in the two functions; `keep` is `Replica.cc:760-768` |
| `Build.handle`     | `handle(Checkpoint)` (`Replica.cc:706-794`), without what it does to the state |
| `Build.advance`    | `last_stable` and the calls of `truncate` in `mark_stable` (`Replica.cc:1575-1611`) |
| `Build.onCert`     | the operations on `elog.fetch(n)`, such as those for the own checkpoint (`Replica.cc:1622-1635`) |
| `Build.move`       | the loop of `mark_stable` over `sset`, for one replica (`Replica.cc:1644-1662`) |
| `replicaIndex`, `storeAboveWindow`, `loadAboveWindow` | `checkpoint_region.cc:51-53`, `:72-87` |
| `persistAboveWindow` | `Checkpoint::persist_above_window` (`Checkpoint.h:109-113`) |

`mark_stable` may be entered again before it returns, so its parts are the steps here, in any order.
`behind` says that `last_executed` is below the message and that the last own commit is old.

`store_above_window` asserts that the sender is *not* a replica, and `load_above_window` the
opposite. So the assertion is a parameter here: `storeAssertion` is what the code has, and a check
that always holds stands for a build without it.
-/

namespace TinyBFT

open Certificate (Op)

/-! ## `Set<T>` -/

namespace SSet

variable {α : Type} (n i : Nat) (elems : Nat → Option α)

def fetch : Option α := if i < n then elems i else none

def remove : Nat → Option α := if i < n then Function.update elems i none else elems

def store (e : α) : Nat → Option α :=
  if i < n && (elems i).isNone then Function.update elems i (some e) else elems

variable {n i}

theorem remove_apply (j : Nat) : remove n i elems j = if i < n ∧ j = i then none else elems j := by
  unfold remove
  by_cases hi : i < n
  · simp [hi, Function.update_apply]
  · simp [hi]

theorem store_remove (hi : i < n) (e : α) :
    store n i (remove n i elems) e = Function.update elems i (some e) := by
  unfold store remove
  simp [hi]

end SSet

/-! ## The operations on a certificate -/

/-- `re_authenticate(0, true)`. -/
def Sized.stable (m : Sized Checkpoint) : Sized Checkpoint :=
  { m with msg := { m.msg with extra := true } }

inductive CertOp
  | op (o : Op (Sized Checkpoint))
  | makeComplete
  | reAuthenticate

/-- The own checkpoint is the correct value too. -/
def Certificate.reAuthenticate (cert : Certificate (Sized Checkpoint)) :
    Certificate (Sized Checkpoint) :=
  { cert with
    mym := cert.mym.map Sized.stable
    vals := match cert.c with
      | some k =>
        cert.vals.modify k fun v => if cert.mym = some v.m then { v with m := v.m.stable } else v
      | none => cert.vals }

def Held.makeComplete {A T : Type} (s : Held A T) : Held A T :=
  match s.cert.c with
  | some k => s.setVals (s.cert.vals.modify k fun v => { v with count := s.cert.complete })
  | none => s

/-- The message changes where it is. -/
def Held.reAuthenticate {A : Type} [DecidableEq A] (s : Held A (Sized Checkpoint)) :
    Held A (Sized Checkpoint) :=
  match s.cert.mym with
  | some a => { s with mem := Function.update s.mem a (s.mem a).stable }
  | none => s

def certOp (E : Env) (h : Certificate (Sized Checkpoint)) :
    CertOp → Option (Certificate (Sized Checkpoint))
  | .op o => certStep E h o
  | .makeComplete => some h.makeComplete
  | .reAuthenticate => some h.reAuthenticate

/-! ## The two functions -/

/-- What `handle` and `mark_stable` use. -/
structure Build (S : Type) where
  lastStable : S → Int
  fetch : Nat → S → Option (Sized Checkpoint)
  remove : Nat → S → S
  keep : Sized Checkpoint → S → Option S
  onCert : Int → CertOp → S → Option S
  advance : Int → S → Option S

namespace Build

inductive Action
  | handle (m : Sized Checkpoint) (behind verify : Bool)
  | onCert (n : Int) (op : CertOp)
  | advance (n : Int)
  | move (i : Nat) (verify : Bool)

/-- The checkpoints come from other replicas. -/
def Action.FromOther (id : Nat) : Action → Prop
  | .handle m _ _ => m.msg.id ≠ id
  | .onCert _ (.op (.add m _)) => m.msg.id ≠ id
  | _ => True

variable {S : Type} (B : Build S) (P : Params) (E : Env)

/-- `Checkpoint::verify`; a principal does not verify its own authenticator. -/
def verifies (m : Sized Checkpoint) (verify : Bool) : Bool :=
  E.isReplica m.msg.id && m.msg.id != E.id && verify

/-- The message is for `sset`: it is above the window, or stable and late. -/
def above (m : Sized Checkpoint) (behind : Bool) (s : S) : Bool :=
  !(decide (m.msg.seqno ≤ B.lastStable s + P.maxOut) && !(m.msg.stable && behind))

def offer (m : Sized Checkpoint) (s : S) : Option S :=
  if (B.fetch m.msg.id s).all fun c => c.msg.seqno < m.msg.seqno then B.keep m s else some s

def handle (m : Sized Checkpoint) (behind verify : Bool) (s : S) : Option S :=
  if B.lastStable s < m.msg.seqno then
    if !B.above P m behind s then B.onCert m.msg.seqno (.op (.add m verify)) s
    else if verifies E m verify && m.msg.stable then B.offer m s
    else some s
  else some s

def move (i : Nat) (verify : Bool) (s : S) : Option S :=
  match B.fetch i s with
  | none => some s
  | some c =>
    if c.msg.seqno < B.lastStable s then some (B.remove i s)
    else if c.msg.seqno ≤ B.lastStable s + P.maxOut then
      B.onCert c.msg.seqno (.op (.add c verify)) (B.remove i s)
    else some s

def step (s : S) : Action → Option S
  | .handle m behind verify => B.handle P E m behind verify s
  | .onCert n op => B.onCert n op s
  | .advance n => B.advance n s
  | .move i verify => B.move P i verify s

/-- `handle` offers the message to `sset`. -/
def offers (m : Sized Checkpoint) (behind verify : Bool) (s : S) : Bool :=
  decide (B.lastStable s < m.msg.seqno) && B.above P m behind s &&
    (verifies E m verify && m.msg.stable)

/-- And `sset` takes it. -/
def keeps (m : Sized Checkpoint) (behind verify : Bool) (s : S) : Bool :=
  B.offers P E m behind verify s && (B.fetch m.msg.id s).all fun c => c.msg.seqno < m.msg.seqno

/-- For each replica, the checkpoints that were offered since one was last moved or discarded. -/
abbrev Pending := Nat → List (Sized Checkpoint)

def note (s s' : S) (p : Pending) : Action → Pending
  | .handle m behind verify => if B.offers P E m behind verify s then
      Function.update p m.msg.id (m :: p m.msg.id) else p
  | .move i _ => if (B.fetch i s').isNone then Function.update p i [] else p
  | _ => p

/-- A step, with what is pending. -/
def traced (s : S × Pending) (a : Action) : Option (S × Pending) :=
  (B.step P E s.1 a).map fun s' => (s', B.note P E s.1 s' s.2 a)

end Build

/-! ## The heap build -/

/-- `last_stable`, `elog` and `sset`. The log is what it stands for: a certificate for each sequence
number of the window. -/
structure HeapCheckpoints where
  lastStable : Int
  certs : Int → Certificate (Sized Checkpoint)
  sset : Nat → Option (Sized Checkpoint)

namespace HeapCheckpoints

variable (P : Params) (E : Env) (h : HeapCheckpoints)

def init : HeapCheckpoints := ⟨0, fun _ => Certificate.new E 0, fun _ => none⟩

def onCert (n : Int) (op : CertOp) : Option HeapCheckpoints :=
  if h.lastStable ≤ n && n ≤ h.lastStable + P.maxOut then
    (certOp E (h.certs n) op).map fun c => { h with certs := Function.update h.certs n c }
  else none

def advance (n : Int) : HeapCheckpoints :=
  if n ≤ h.lastStable then h
  else
    { h with lastStable := n, certs := fun k => if k ≤ h.lastStable +
               P.maxOut then h.certs k else Certificate.new E 0 }

def keep (m : Sized Checkpoint) : HeapCheckpoints :=
  { h with sset := SSet.store E.n m.msg.id (SSet.remove E.n m.msg.id h.sset) m }

def build : Build HeapCheckpoints where
  lastStable := lastStable
  fetch i h := SSet.fetch E.n i h.sset
  remove i h := { h with sset := SSet.remove E.n i h.sset }
  keep m h := some (h.keep E m)
  onCert n op h := h.onCert P E n op
  advance n h := some (h.advance P E n)

end HeapCheckpoints

/-! ## The static build -/

/-- `last_stable`, `elog` and the region, the slots `above_window_checkpoints`, and `sset`, whose
elements are slots. -/
structure StaticCheckpoints where
  store : CheckpointStore
  above : Nat → Sized Checkpoint
  sset : Nat → Option Nat

namespace StaticCheckpoints

/-- The slot of a replica: the replica itself has none. -/
def replicaIndex (own id : Nat) : Nat := if id ≤ own then id else id - 1

/-- The first assertion of `store_above_window`, as it is there. -/
def storeAssertion (P : Params) (id : Nat) : Bool := P.maxNumReplicas ≤ id

variable (P : Params) (E : Env) (valid : Nat → Bool) (s : StaticCheckpoints)

def init (blocks : Nat × Nat → Sized Checkpoint) (above : Nat → Sized Checkpoint) :
    StaticCheckpoints :=
  ⟨CheckpointStore.init E blocks, above, fun _ => none⟩

/-- `store_above_window`. It does not check that the message fits the slot; where it does not, it is
written past it. -/
def storeAboveWindow (m : Sized Checkpoint) : Option StaticCheckpoints :=
  if valid m.msg.id && (decide (s.store.region.head + P.maxOut < m.msg.seqno) || m.msg.stable) then
    if m.size ≤ CheckpointRegion.checkpointSize P &&
      replicaIndex E.id m.msg.id < P.maxNumReplicas - 1 then
      some { s with above := Function.update s.above (replicaIndex E.id m.msg.id) m }
    else none
  else none

def loadAboveWindow (id : Nat) : Option Nat :=
  if id != E.id && id < P.maxNumReplicas then some (replicaIndex E.id id) else none

def persistAboveWindow (m : Sized Checkpoint) : Option (Nat × StaticCheckpoints) := do
  let s ← s.storeAboveWindow P E valid m
  let i ← loadAboveWindow P E m.msg.id
  some (i, s)

def keep (m : Sized Checkpoint) : Option StaticCheckpoints := do
  let s := { s with sset := SSet.remove E.n m.msg.id s.sset }
  let (i, s) ← s.persistAboveWindow P E valid m
  some { s with sset := SSet.store E.n m.msg.id s.sset i }

def onCert (n : Int) (op : CertOp) : Option StaticCheckpoints :=
  let onHeld (f : Held (Nat × Nat) (Sized Checkpoint) → Held (Nat × Nat) (Sized Checkpoint)) :=
    (s.store.elog.fetch P n).map fun cert =>
      { s with store := s.store.setHeld P n (f ⟨cert, s.store.region.blocks⟩) }
  match op with
  | .op o => (s.store.onCert P E n o).map fun store => { s with store }
  | .makeComplete => onHeld Held.makeComplete
  | .reAuthenticate => onHeld Held.reAuthenticate

def advance (n : Int) : Option StaticCheckpoints :=
  (s.store.markStable P n).map fun store => { s with store }

def build : Build StaticCheckpoints where
  lastStable s := s.store.lastStable
  fetch i s := (SSet.fetch E.n i s.sset).map s.above
  remove i s := { s with sset := SSet.remove E.n i s.sset }
  keep m s := s.keep P E valid m
  onCert n op s := s.onCert P E n op
  advance n s := s.advance P n

end StaticCheckpoints

/-! ## The own checkpoint in the two builds -/

section Own

variable {A : Type} [DecidableEq A] {E : Env} {B : Blocks A (Sized Checkpoint)}
    {t : Held A (Sized Checkpoint)}
  {h h' : Certificate (Sized Checkpoint)}

/-- `modify` of the values changes no block if it changes the counts only. -/
theorem Held.makeComplete_view (hp : t.Placed E B) :
    t.makeComplete.view = t.view.makeComplete ∧ t.makeComplete.Placed E B := by
  unfold Held.makeComplete Certificate.makeComplete
  have hc : t.view.c = t.cert.c := rfl
  rw [hc]
  cases hk : t.cert.c with
  | none => exact ⟨rfl, hp⟩
  | some k =>
    have haddrs :
      (t.cert.vals.modify k fun v => { v with count := t.cert.complete }).map (·.m) = t.addrs := by
      apply List.ext_getElem?
      intro i
      simp only [Held.addrs, List.getElem?_map, List.getElem?_modify]
      cases t.cert.vals[i]? with
      | none => rfl
      | some v => by_cases hik : k = i <;> simp [hik]
    have hread : (t.cert.vals.modify k fun v => { v with count := t.cert.complete }).map
      (fun v => (⟨t.mem v.m, v.count⟩ : MessageVal (Sized Checkpoint))) =
        t.read.modify k fun v => { v with count := t.cert.complete } := by
      apply List.ext_getElem?
      intro i
      simp only [Held.read, List.getElem?_map, List.getElem?_modify]
      cases t.cert.vals[i]? with
      | none => rfl
      | some v => by_cases hik : k = i <;> simp [hik]
    refine ⟨?_, hp.congr haddrs rfl rfl rfl fun _ _ => rfl⟩
    simp only [Held.view, Held.setVals, Held.read, hk] at hread ⊢
    rw [hread]

/-- The own message is in one block, which is that of the correct value. -/
theorem Held.reAuthenticate_view (hinj : Function.Injective B.addr) (hp : t.Placed E B) :
    t.reAuthenticate.view = t.view.reAuthenticate ∧ t.reAuthenticate.Placed E B ∧
      ∀ a, (∀ i, a ≠ B.addr i) → t.reAuthenticate.mem a = t.mem a := by
  unfold Held.reAuthenticate Certificate.reAuthenticate
  have hmym : t.view.mym = t.cert.mym.map t.mem := rfl
  have hcv : t.view.c = t.cert.c := rfl
  rw [hmym, hcv]
  cases hm : t.cert.mym with
  | none =>
    refine ⟨?_, hp, fun _ _ => rfl⟩
    have hvals : (match t.cert.c with
        | some k =>
          t.view.vals.modify k fun v => if none = some v.m then { v with m := v.m.stable } else v
        | none => t.view.vals) = t.read := by
      cases t.cert.c with
      | none => rfl
      | some k =>
        simp only [reduceCtorEq, if_false]
        exact List.modify_id _ _
    simp only [Option.map_none]
    rw [hvals]
    unfold Held.view
    rw [hm]
    rfl
  | some a =>
    obtain ⟨⟨k, hc, hk⟩, -⟩ := hp.mym a hm
    obtain ⟨v, hv, hva⟩ : ∃ v, t.cert.vals[k]? = some v ∧ v.m = a := by simpa [Held.addrs] using hk
    obtain ⟨j, -, hvm, -, honly⟩ := hp.correct hinj hc hv
    rw [hva] at hvm
    refine ⟨?_, ⟨hp.length_le, hp.valid, hp.places, fun b hb => ⟨(hp.mym b hb).1, rfl⟩⟩,
      fun b hb => Function.update_of_ne (hvm ▸ hb j) _ _⟩
    have hread : t.cert.vals.map (fun w =>
      (⟨Function.update t.mem a (t.mem a).stable w.m, w.count⟩ : MessageVal (Sized Checkpoint))) =
        t.read.modify k fun w => if some (t.mem a) = some w.m then
          { w with m := w.m.stable } else w := by
      apply List.ext_getElem?
      intro i
      simp only [Held.read, List.getElem?_map, List.getElem?_modify]
      by_cases hik : k = i
      · subst hik
        simp [hv, hva]
      · cases hw : t.cert.vals[i]? with
        | none => rfl
        | some w =>
          have hne : w.m ≠ a :=
            fun he => hik (honly i (by rw [Held.addrs_getElem hw, he, hvm])).symm
          simp [hik, hne]
    simp only [Held.view, Held.read, hm, hc, Option.map_some, Function.update_self] at hread ⊢
    rw [hread]

theorem Like.certOp_back (hl : Like E h h') (op : CertOp) {t' : Certificate (Sized Checkpoint)}
    (hother : ∀ m verify, op = .op (.add m verify) → m.msg.id ≠ E.id)
    (ht : certOp { E with staticLog := true } h' op = some t') :
    ∃ t, certOp { E with staticLog := false } h op = some t ∧ Like E t t' := by
  cases op with
  | op o => exact hl.step_back o (fun m verify ho => hother m verify (congrArg CertOp.op ho)) ht
  | makeComplete =>
    obtain ⟨bmap, rfl, hb⟩ := hl
    obtain rfl := Option.some.inj ht
    obtain ⟨bits, vals, c, complete, mym⟩ := h
    refine ⟨_, rfl, bmap, ?_⟩
    cases c with
    | none => exact ⟨rfl, hb⟩
    | some k => exact ⟨rfl, hb⟩
  | reAuthenticate =>
    obtain ⟨bmap, rfl, hb⟩ := hl
    obtain rfl := Option.some.inj ht
    exact ⟨_, rfl, bmap, rfl, hb⟩

theorem certOp_complete {op : CertOp} (ht : certOp E h op = some h') :
    h'.complete = h.complete := by
  cases op with
  | op o => exact certStep_complete E ht
  | makeComplete =>
    obtain rfl := Option.some.inj ht
    unfold Certificate.makeComplete
    cases h.c <;> rfl
  | reAuthenticate =>
    obtain rfl := Option.some.inj ht
    rfl

end Own

/-! ## The static build refines the heap build -/

namespace StaticCheckpoints

/-- The slots of different replicas are different. -/
theorem replicaIndex_inj {own i j : Nat} (hi : i ≠ own) (hj : j ≠ own)
    (h : replicaIndex own i = replicaIndex own j) : i = j := by
  unfold replicaIndex at h
  split at h <;> split at h <;> omega

theorem replicaIndex_lt {own i n : Nat} (hi : i < n) (hown : own < n) (hne : i ≠ own) :
    replicaIndex own i < n - 1 := by
  unfold replicaIndex
  split <;> omega

/-- The certificates of the window stand for the heap build's, and each element of `sset` is the
slot of its replica, with the message. -/
structure Refines (P : Params) (E : Env) (s : StaticCheckpoints) (h : HeapCheckpoints) : Prop where
  aligned : s.store.Aligned P { E with staticLog := true }
  lastStable : s.store.lastStable = h.lastStable
  complete : ∀ k, (s.store.elog.certs k).complete = 2 * E.f + 1
  certs : ∀ n, s.store.InRange P n → Like E (h.certs n) (s.store.held P n).view
  sset : ∀ i, h.sset i = (s.sset i).map s.above
  slots : ∀ i k, s.sset i = some k → i < E.n ∧ i ≠ E.id ∧
    k = replicaIndex E.id i ∧ (s.above k).msg.id = i

variable {P : Params} {E : Env} {valid : Nat → Bool} {s s' : StaticCheckpoints}
    {h : HeapCheckpoints} {i : Nat} {n : Int}
  {m : Sized Checkpoint}

theorem refines_init (blocks : Nat × Nat → Sized Checkpoint) (above : Nat → Sized Checkpoint) :
    Refines P E (init { E with staticLog := true } blocks above)
      (HeapCheckpoints.init { E with staticLog := false }) where
  aligned := CheckpointStore.aligned_init blocks
  lastStable := rfl
  complete _ := rfl
  certs _ _ := ⟨[], rfl, fun _ => ⟨id, fun h => absurd h List.not_mem_nil⟩⟩
  sset _ := rfl
  slots _ _ hk := by cases hk

theorem Refines.fetch (hr : Refines P E s h) (i : Nat) :
    (SSet.fetch E.n i s.sset).map s.above = SSet.fetch E.n i h.sset := by
  unfold SSet.fetch
  split
  · exact (hr.sset i).symm
  · rfl

theorem Refines.remove (hr : Refines P E s h) (i : Nat) :
    Refines P E { s with sset := SSet.remove E.n i s.sset }
      { h with sset := SSet.remove E.n i h.sset } := by
  refine ⟨hr.aligned, hr.lastStable, hr.complete,
    hr.certs, fun j => ?_, fun j k hk => hr.slots j k ?_⟩
  · simp only [SSet.remove_apply]
    split
    · rfl
    · exact hr.sset j
  · simp only [SSet.remove_apply] at hk
    split at hk
    · cases hk
    · exact hk

/-- What `persist_above_window` does if it does not stop. -/
theorem persistAboveWindow_cases {k : Nat} (hp : s.persistAboveWindow P E valid m = some (k, s')) :
    k = replicaIndex E.id m.msg.id ∧ m.msg.id ≠ E.id ∧
      s' = { s with above := Function.update s.above k m } := by
  unfold persistAboveWindow storeAboveWindow loadAboveWindow at hp
  simp only [Option.bind_eq_bind, Option.bind_eq_some_iff,
    Option.ite_none_right_eq_some, Option.some.injEq, Prod.mk.injEq,
    Bool.and_eq_true, bne_iff_ne, decide_eq_true_eq] at hp
  obtain ⟨_, ⟨-, -, rfl⟩, _, ⟨⟨hne, -⟩, rfl⟩, rfl, rfl⟩ := hp
  exact ⟨rfl, hne, rfl⟩

theorem keep_cases (hlt : m.msg.id < E.n) (hs : s.keep P E valid m = some s') :
    m.msg.id ≠ E.id ∧ s' = ⟨s.store, Function.update s.above (replicaIndex E.id m.msg.id) m,
      Function.update s.sset m.msg.id (some (replicaIndex E.id m.msg.id))⟩ := by
  unfold StaticCheckpoints.keep at hs
  simp only [Option.bind_eq_bind, Option.bind_eq_some_iff, Option.some.injEq, Prod.exists] at hs
  obtain ⟨k, _, hp, rfl⟩ := hs
  obtain ⟨rfl, hne, rfl⟩ := persistAboveWindow_cases hp
  exact ⟨hne, congrArg _ (SSet.store_remove _ hlt _)⟩

/-- A checkpoint goes to the slot of its sender, which no other element of `sset` points to. -/
theorem Refines.keep (hr : Refines P E s h) (hlt : m.msg.id < E.n)
    (hs : s.keep P E valid m = some s') :
    Refines P E s' (h.keep E m) := by
  obtain ⟨hne, rfl⟩ := keep_cases hlt hs
  have hslot : ∀ j k, s.sset j = some k → j ≠ m.msg.id → k ≠ replicaIndex E.id m.msg.id := by
    intro j k hk hj he
    obtain ⟨-, hjne, rfl, -⟩ := hr.slots j k hk
    exact hj (replicaIndex_inj hjne hne he)
  refine ⟨hr.aligned, hr.lastStable, hr.complete, hr.certs, fun j => ?_, fun j k hk => ?_⟩
  · rw [HeapCheckpoints.keep, SSet.store_remove _ hlt]
    by_cases hj : j = m.msg.id
    · subst hj
      simp
    · simp only [Function.update_of_ne hj]
      rw [hr.sset j]
      cases hk : s.sset j with
      | none => rfl
      | some k => exact congrArg some (Function.update_of_ne (hslot j k hk hj) _ _).symm
  · by_cases hj : j = m.msg.id
    · subst hj
      obtain rfl : replicaIndex E.id m.msg.id = k := by simpa using hk
      exact ⟨hlt, hne, rfl, by simp⟩
    · simp only [Function.update_of_ne hj] at hk
      obtain ⟨h1, h2, h3, h4⟩ := hr.slots j k hk
      refine ⟨h1, h2, h3, ?_⟩
      simp only [Function.update_of_ne (hslot j k hk hj)]
      exact h4

/-- The certificate of one checkpoint changes in both builds. -/
theorem Refines.setHeld (hr : Refines P E s h) (hin : s.store.InRange P n)
    {t : Held (Nat × Nat) (Sized Checkpoint)} {op : CertOp}
    (hplaced : t.Placed { E with staticLog := true } (s.store.region.groupBlocks P n)) (hmem : ∀ a,
      (∀ i, a ≠ (s.store.region.groupBlocks P n).addr i) → t.mem a = s.store.region.blocks a)
    (ht : certOp { E with staticLog := true } (s.store.held P n).view op = some t.view)
    (hother : ∀ m verify, op = .op (.add m verify) → m.msg.id ≠ E.id) :
    ∃ h', h.onCert P { E with staticLog := false } n op = some h' ∧
      Refines P E { s with store := s.store.setHeld P n t } h' := by
  obtain ⟨c, hc, hlike⟩ := (hr.certs n hin).certOp_back op hother ht
  obtain ⟨hal, hself, hkeep⟩ := hr.aligned.setHeld hin hplaced hmem
  obtain ⟨h1, h2, -⟩ := hin.bounds
  rw [hr.aligned.elog_head, hr.lastStable] at h1 h2
  refine ⟨{ h with certs := Function.update h.certs n c },
    ?_, hal, hr.lastStable, fun k => ?_, fun m hm => ?_, hr.sset, hr.slots⟩
  · unfold HeapCheckpoints.onCert
    rw [if_pos (by simp [h1, h2]), hc]
    rfl
  · have hcomp : t.cert.complete = 2 * E.f + 1 := (certOp_complete ht).trans (hr.complete _)
    by_cases hk : k = s.store.elog.index P n
    · subst hk
      simpa [CheckpointStore.setHeld, CheckpointLog.set] using hcomp
    · simpa [CheckpointStore.setHeld, CheckpointLog.set, hk] using hr.complete k
  · by_cases hne : m = n
    · subst hne
      rw [hself]
      simpa using hlike
    · rw [(hkeep m hm hne).2]
      simpa [hne] using hr.certs m hm

theorem Refines.onCert (hf : E.f ≤ P.regionF) (hr : Refines P E s h) {op : CertOp}
    (hother : ∀ m verify, op = .op (.add m verify) → m.msg.id ≠ E.id)
    (hs : s.onCert P { E with staticLog := true } n op = some s') :
    ∃ h', h.onCert P { E with staticLog := false } n op = some h' ∧ Refines P E s' h' := by
  have hinj : Function.Injective (s.store.region.groupBlocks P n).addr :=
    fun i j he => (Prod.mk.inj he).2
  have hlim : E.f + 1 ≤ (s.store.region.groupBlocks P n).limit := Nat.succ_le_succ hf
  have hfetch : ∀ {cert}, s.store.elog.fetch P n = some cert →
    s.store.InRange P n ∧ s.store.held P n = ⟨cert, s.store.region.blocks⟩ := by
    intro cert hc
    obtain ⟨hin, rfl⟩ : s.store.InRange P n ∧
      s.store.elog.certs (s.store.elog.index P n) = cert := by
      simpa [CheckpointLog.fetch, CheckpointStore.InRange] using hc
    exact ⟨hin, rfl⟩
  cases op with
  | op o =>
    simp only [StaticCheckpoints.onCert, Option.map_eq_some_iff] at hs
    obtain ⟨store, hstore, rfl⟩ := hs
    obtain ⟨t, ht, hin, -, rfl⟩ := CheckpointStore.onCert_cases hstore
    obtain ⟨hview, hplaced⟩ :=
      staticStep_view (E := { E with staticLog := true }) hinj hlim rfl (hr.aligned.placed n hin) ht
    exact hr.setHeld hin hplaced (fun a ha => staticStep_mem ht ha) hview hother
  | makeComplete =>
    simp only [StaticCheckpoints.onCert, Option.map_eq_some_iff] at hs
    obtain ⟨cert, hc, rfl⟩ := hs
    obtain ⟨hin, hheld⟩ := hfetch hc
    obtain ⟨hview, hplaced⟩ := Held.makeComplete_view (hr.aligned.placed n hin)
    rw [← hheld]
    refine hr.setHeld hin hplaced (fun a _ => ?_) (congrArg some hview.symm) hother
    unfold Held.makeComplete
    split <;> rfl
  | reAuthenticate =>
    simp only [StaticCheckpoints.onCert, Option.map_eq_some_iff] at hs
    obtain ⟨cert, hc, rfl⟩ := hs
    obtain ⟨hin, hheld⟩ := hfetch hc
    obtain ⟨hview, hplaced, hmem⟩ := Held.reAuthenticate_view hinj (hr.aligned.placed n hin)
    rw [← hheld]
    exact hr.setHeld hin hplaced hmem (congrArg some hview.symm) hother

/-- `mark_stable` moves both windows. -/
theorem Refines.advance (hr : Refines P E s h) (hs : s.advance P n = some s') :
    Refines P E s' (h.advance P { E with staticLog := false } n) := by
  simp only [StaticCheckpoints.advance, Option.map_eq_some_iff] at hs
  obtain ⟨store, hstore, rfl⟩ := hs
  obtain ⟨hal, hmoved⟩ := hr.aligned.markStable hstore
  unfold HeapCheckpoints.advance
  rw [← hr.lastStable]
  by_cases hle : n ≤ s.store.lastStable
  · rw [CheckpointStore.markStable, if_pos hle] at hstore
    obtain rfl := Option.some.inj hstore
    rw [if_pos hle]
    exact hr
  · rw [if_neg hle]
    obtain ⟨hstable, hcomplete⟩ := CheckpointStore.markStable_fields hle hstore
    refine ⟨hal, hstable, fun k => (hcomplete k).trans (hr.complete k),
      fun m hm => ?_, hr.sset, hr.slots⟩
    · obtain ⟨h1, h2, h3⟩ := hm.bounds
      rw [hal.elog_head, hstable] at h1
      by_cases hin : m ≤ s.store.lastStable + P.maxOut
      · have hin' : s.store.InRange P m := by
          rw [CheckpointStore.inRange_iff, hr.aligned.elog_head]
          exact ⟨by omega, hin, h3⟩
        rw [(hmoved.retained m hin' hm).1]
        simpa [hin] using hr.certs m hin'
      · have hout : ¬s.store.InRange P m := by
          rw [CheckpointStore.inRange_iff, hr.aligned.elog_head]
          exact fun h => hin h.2.1
        obtain ⟨k, hk⟩ := hmoved.entered m hout hm
        have hview : (store.held P m).view = Certificate.new { E with staticLog := false } 0 := by
          unfold CheckpointStore.held
          rw [hk]
          have := hr.complete k
          simp [Held.view, Held.read, StaticCert.clear, Certificate.new, this]
        rw [hview]
        simp only [hin, if_false]
        exact ⟨[], rfl, by simp [Certificate.new]⟩

/-! ## The two functions -/

/-- The build with the check `valid` in `store_above_window`. -/
abbrev static (P : Params) (E : Env) (valid : Nat → Bool) : Build StaticCheckpoints :=
  build P { E with staticLog := true } valid

abbrev heap (P : Params) (E : Env) : Build HeapCheckpoints :=
  HeapCheckpoints.build P { E with staticLog := false }

theorem Refines.fetched (hr : Refines P E s h) (valid : Nat → Bool) (i : Nat) :
    (static P E valid).fetch i s = (heap P E).fetch i h := hr.fetch i

/-- What `sset` has of a replica is a message of it. -/
theorem Refines.sender (hr : Refines P E s h) {c : Sized Checkpoint}
    (hc : (static P E valid).fetch i s = some c) : c.msg.id ≠ E.id := by
  obtain ⟨k, hk, rfl⟩ := Option.map_eq_some_iff.1 hc
  have hk : s.sset i = some k := by
    unfold SSet.fetch at hk
    split at hk
    · exact hk
    · cases hk
  obtain ⟨-, hne, -, hid⟩ := hr.slots i k hk
  exact hid ▸ hne

theorem Refines.move (hf : E.f ≤ P.regionF) (hr : Refines P E s h) {verify : Bool}
    (hs : (static P E valid).move P i verify s = some s') :
    ∃ h', (heap P E).move P i verify h = some h' ∧ Refines P E s' h' := by
  unfold Build.move at hs ⊢
  rw [← hr.fetched valid]
  have hls : (heap P E).lastStable h = (static P E valid).lastStable s := hr.lastStable.symm
  rw [hls]
  cases hc : (static P E valid).fetch i s with
  | none =>
    rw [hc] at hs
    obtain rfl := Option.some.inj hs
    exact ⟨h, rfl, hr⟩
  | some c =>
    rw [hc] at hs
    dsimp only at hs ⊢
    split at hs
    · rename_i hlt
      obtain rfl := Option.some.inj hs
      exact ⟨_, if_pos hlt, hr.remove i⟩
    rename_i hge
    split at hs
    · rename_i hin
      rw [if_neg hge, if_pos hin]
      refine (hr.remove i).onCert hf (fun m verify he => ?_) hs
      obtain rfl : c = m := by
        injection he with he
        injection he
      exact hr.sender hc
    · rename_i hout
      obtain rfl := Option.some.inj hs
      exact ⟨h, by rw [if_neg hge, if_neg hout], hr⟩

theorem Refines.handle (hf : E.f ≤ P.regionF) (hr : Refines P E s h) {behind verify : Bool}
    (hother : m.msg.id ≠ E.id) (hs : (static P E valid).handle P E m behind verify s = some s') :
    ∃ h', (heap P E).handle P E m behind verify h = some h' ∧ Refines P E s' h' := by
  have hls : (heap P E).lastStable h = (static P E valid).lastStable s := hr.lastStable.symm
  have habove : (heap P E).above P m behind h = (static P E valid).above P m behind s := by
    unfold Build.above
    rw [hls]
  unfold Build.handle at hs ⊢
  rw [hls, habove]
  split at hs
  swap
  · rename_i hle
    obtain rfl := Option.some.inj hs
    exact ⟨h, if_neg hle, hr⟩
  rename_i hlt
  rw [if_pos hlt]
  split at hs
  · rename_i hin
    rw [if_pos hin]
    refine hr.onCert hf (fun m' verify he => ?_) hs
    obtain rfl : m = m' := by
      injection he with he
      injection he
    exact hother
  rename_i hout
  rw [if_neg hout]
  split at hs
  · rename_i hver
    rw [if_pos hver]
    have hid : m.msg.id < E.n := by
      simp only [Build.verifies, Env.isReplica, Bool.and_eq_true, decide_eq_true_eq] at hver
      exact hver.1.1.1
    unfold Build.offer at hs ⊢
    rw [← hr.fetched valid]
    split at hs
    · rename_i hnewer
      exact ⟨_, if_pos hnewer, hr.keep hid hs⟩
    · rename_i hold
      obtain rfl := Option.some.inj hs
      exact ⟨h, if_neg hold, hr⟩
  · rename_i hver
    obtain rfl := Option.some.inj hs
    exact ⟨h, if_neg hver, hr⟩

theorem Refines.step (hf : E.f ≤ P.regionF) (hr : Refines P E s h) {a : Build.Action}
    (hother : a.FromOther E.id) (hs : (static P E valid).step P E s a = some s') :
    ∃ h', (heap P E).step P E h a = some h' ∧ Refines P E s' h' := by
  cases a with
  | handle m behind verify => exact hr.handle hf hother hs
  | onCert n op =>
    refine hr.onCert hf (fun m verify he => ?_) hs
    subst he
    exact hother
  | advance n => exact ⟨_, rfl, hr.advance hs⟩
  | move i verify => exact hr.move hf hs

/-- The same checkpoints are pending. -/
theorem Refines.note (hr : Refines P E s h) {h' : HeapCheckpoints} (hr' : Refines P E s' h')
    (p : Build.Pending) (a : Build.Action) :
    (static P E valid).note P E s s' p a = (heap P E).note P E h h' p a := by
  have hls : (heap P E).lastStable h = (static P E valid).lastStable s := hr.lastStable.symm
  cases a with
  | handle m behind verify =>
    unfold Build.note Build.offers Build.above
    rw [hls]
  | move i verify =>
    unfold Build.note
    dsimp only
    rw [← hr'.fetched valid]
  | onCert n op => rfl
  | advance n => rfl

theorem refines_run (hf : E.f ≤ P.regionF) {as : List Build.Action} {p p' : Build.Pending}
    (hr : Refines P E s h) (hother : ∀ a ∈ as, a.FromOther E.id)
    (hs : Run.run ((static P E valid).traced P E) (s, p) as = some (s', p')) :
    ∃ h', Run.run ((heap P E).traced P E) (h, p) as = some (h', p') ∧ Refines P E s' h' := by
  induction as generalizing s h p with
  | nil =>
    obtain ⟨rfl, rfl⟩ := Prod.mk.inj (Option.some.inj hs)
    exact ⟨h, rfl, hr⟩
  | cons a as ih =>
    obtain ⟨⟨t, q⟩, ht, hs⟩ := Run.run_cons.1 hs
    obtain ⟨t, hstep, he⟩ := Option.map_eq_some_iff.1 ht
    obtain ⟨rfl, rfl⟩ := Prod.mk.inj he
    obtain ⟨u, hu, hru⟩ := hr.step hf (hother a List.mem_cons_self) hstep
    obtain ⟨h', hrun, hr'⟩ := ih hru (fun b hb => hother b (List.mem_cons_of_mem a hb)) hs
    refine ⟨h', Run.run_cons.2 ⟨_, ?_, hrun⟩, hr'⟩
    unfold Build.traced
    rw [hu, hr.note hru p a]
    rfl

end StaticCheckpoints

/-! ## What `sset` holds -/

/-- The newest of the pending checkpoints; none if there are none. -/
def Newest (l : List (Sized Checkpoint)) : Option (Sized Checkpoint) → Prop
  | none => l = []
  | some c => c ∈ l ∧ ∀ d ∈ l, d.msg.seqno ≤ c.msg.seqno

theorem Newest.cons {l : List (Sized Checkpoint)} {o : Option (Sized Checkpoint)}
    {m : Sized Checkpoint} (h : Newest l o) :
    Newest (m :: l) (if o.all fun c => c.msg.seqno < m.msg.seqno then some m else o) := by
  cases o with
  | none =>
    obtain rfl : l = [] := h
    exact ⟨List.mem_singleton_self m, fun d hd => (List.mem_singleton.1 hd) ▸ le_rfl⟩
  | some c =>
    obtain ⟨hmem, hmax⟩ := h
    simp only [Option.all_some, decide_eq_true_eq]
    split
    · rename_i hlt
      refine ⟨List.mem_cons_self, fun d hd => ?_⟩
      rcases List.mem_cons.1 hd with rfl | hd
      · exact le_rfl
      · exact (hmax d hd).trans hlt.le
    · rename_i hge
      refine ⟨List.mem_cons_of_mem m hmem, fun d hd => ?_⟩
      rcases List.mem_cons.1 hd with rfl | hd
      · exact not_lt.1 hge
      · exact hmax d hd

namespace HeapCheckpoints

variable {P : Params} {E : Env} {h h' : HeapCheckpoints} {p : Build.Pending}

theorem onCert_sset {n : Int} {op : CertOp} (hs : h.onCert P E n op = some h') :
    h'.sset = h.sset := by
  simp only [HeapCheckpoints.onCert, Option.ite_none_right_eq_some, Option.map_eq_some_iff] at hs
  obtain ⟨-, c, -, rfl⟩ := hs
  rfl

/-- `handle` changes `sset` only where it offers the message to it. -/
theorem handle_cases {E' : Env} {m : Sized Checkpoint} {behind verify : Bool}
    (hs : (build P E).handle P E' m behind verify h = some h') :
    ((build P E).offers P E' m behind verify h = false ∧ h'.sset = h.sset) ∨
      (build P E).offers P E' m behind verify h = true ∧
        m.msg.id < E'.n ∧ (build P E).offer m h = some h' := by
  unfold Build.handle at hs
  unfold Build.offers
  split at hs
  swap
  · rename_i hle
    obtain rfl := Option.some.inj hs
    exact .inl ⟨by simp [hle], rfl⟩
  rename_i hlt
  split at hs
  · rename_i hin
    exact .inl ⟨by simp_all, onCert_sset hs⟩
  rename_i hout
  split at hs
  · rename_i hver
    have hid : m.msg.id < E'.n := by
      simp only [Build.verifies, Env.isReplica, Bool.and_eq_true, decide_eq_true_eq] at hver
      exact hver.1.1.1
    exact .inr ⟨by simp_all, hid, hs⟩
  · rename_i hver
    obtain rfl := Option.some.inj hs
    refine .inl ⟨?_, rfl⟩
    rw [Bool.not_eq_true] at hver
    rw [hver, Bool.and_false]

/-- `sset` takes a checkpoint that is newer than the one of its sender. -/
theorem offer_fetch {m : Sized Checkpoint} (hid : m.msg.id < E.n)
    (hs : (build P E).offer m h = some h') (i : Nat) :
    SSet.fetch E.n i h'.sset = if i = m.msg.id then
      (if (SSet.fetch E.n m.msg.id h.sset).all fun c => c.msg.seqno < m.msg.seqno then some m
          else SSet.fetch E.n m.msg.id h.sset)
      else SSet.fetch E.n i h.sset := by
  unfold Build.offer at hs
  have hfetch : (build P E).fetch m.msg.id h = SSet.fetch E.n m.msg.id h.sset := rfl
  rw [hfetch] at hs
  split at hs
  · rename_i hnewer
    obtain rfl := Option.some.inj hs
    rw [if_pos hnewer, HeapCheckpoints.keep, SSet.store_remove _ hid]
    unfold SSet.fetch
    by_cases hi : i = m.msg.id
    · subst hi
      simp [hid]
    · simp [hi]
  · rename_i hold
    obtain rfl := Option.some.inj hs
    rw [if_neg hold]
    split
    · rename_i hi
      rw [hi]
    · rfl

/-- The loop body leaves the checkpoint of the replica where it is, or takes it out. -/
theorem move_cases {j : Nat} {verify : Bool} (hs : (build P E).move P j verify h = some h') :
    (¬((build P E).fetch j h').isNone = true ∧ h' = h) ∨
      ((build P E).fetch j h' = none ∧ ∀ i, i ≠ j →
          SSet.fetch E.n i h'.sset = SSet.fetch E.n i h.sset) := by
  have hremoved : ∀ {u : HeapCheckpoints}, u.sset = SSet.remove E.n j h.sset →
      (build P E).fetch j u = none ∧ ∀ i, i ≠ j →
        SSet.fetch E.n i u.sset = SSet.fetch E.n i h.sset := by
    intro u hu
    refine ⟨?_, fun i hi => ?_⟩
    · have hfetch : (build P E).fetch j u = SSet.fetch E.n j u.sset := rfl
      rw [hfetch, hu, SSet.fetch, SSet.remove_apply]
      split <;> simp_all
    · simp only [hu, SSet.fetch, SSet.remove_apply, hi, and_false, if_false]
  unfold Build.move at hs
  cases hc : (build P E).fetch j h with
  | none =>
    rw [hc] at hs
    obtain rfl := Option.some.inj hs
    exact .inr ⟨hc, fun _ _ => rfl⟩
  | some c =>
    rw [hc] at hs
    dsimp only at hs
    split at hs
    · obtain rfl := Option.some.inj hs
      exact .inr (hremoved rfl)
    split at hs
    · exact .inr (hremoved (onCert_sset hs))
    · obtain rfl := Option.some.inj hs
      exact .inl ⟨by simp [hc], rfl⟩

/-- One step keeps, for each replica, the newest of its pending checkpoints in `sset`. -/
theorem newest_step (E' : Env) (hE : E'.n = E.n) {a : Build.Action}
    (hs : (build P E).step P E' h a = some h')
    (hn : ∀ i, Newest (p i) (SSet.fetch E.n i h.sset)) (i : Nat) :
    Newest ((build P E).note P E' h h' p a i) (SSet.fetch E.n i h'.sset) := by
  cases a with
  | onCert n op => exact (onCert_sset hs) ▸ hn i
  | advance n =>
    obtain rfl := Option.some.inj hs
    have hsset : (h.advance P E n).sset = h.sset := by
      unfold HeapCheckpoints.advance
      split <;> rfl
    exact hsset ▸ hn i
  | handle m behind verify =>
    rcases handle_cases hs with ⟨hoff, hsset⟩ | ⟨hoff, hid, hs⟩
    · unfold Build.note
      dsimp only
      rw [if_neg (by simp [hoff]), hsset]
      exact hn i
    · unfold Build.note
      dsimp only
      rw [if_pos hoff]
      have hfetch := offer_fetch (hE ▸ hid) hs i
      by_cases hi : i = m.msg.id
      · subst hi
        rw [Function.update_self, hfetch, if_pos rfl]
        exact (hn m.msg.id).cons
      · rw [Function.update_of_ne hi, hfetch, if_neg hi]
        exact hn i
  | move j verify =>
    unfold Build.note
    dsimp only
    rcases move_cases hs with ⟨hsome, rfl⟩ | ⟨hnone, hother⟩
    · rw [if_neg hsome]
      exact hn i
    · rw [if_pos (Option.isNone_iff_eq_none.2 hnone)]
      by_cases hi : i = j
      · subst hi
        rw [Function.update_self]
        rw [show SSet.fetch E.n i h'.sset = none from hnone]
        rfl
      · rw [Function.update_of_ne hi, hother i hi]
        exact hn i

/-- For each replica, `sset` has the newest of its pending checkpoints. -/
def Kept (n : Nat) (s : HeapCheckpoints × Build.Pending) : Prop :=
  ∀ i, Newest (s.2 i) (SSet.fetch n i s.1.sset)

theorem kept_run (E' : Env) (hE : E'.n = E.n) {as : List Build.Action}
    {s s' : HeapCheckpoints × Build.Pending} (hk : Kept E.n s)
    (hs : Run.run ((build P E).traced P E') s as = some s') : Kept E.n s' := by
  refine Run.invariant_of_step (fun s a s' hi ha => ?_) hk hs
  obtain ⟨u, hu, rfl⟩ := Option.map_eq_some_iff.1 ha
  exact newest_step E' hE hu hi

end HeapCheckpoints

/-! ## What the static build keeps -/

namespace StaticCheckpoints

variable (P : Params) (E : Env) (valid : Nat → Bool)

/-- `handle` keeps the checkpoint that it receives. -/
def Keeps (s : StaticCheckpoints) : Build.Action → Prop
  | .handle m behind verify => (static P E valid).keeps P E m behind verify s = true
  | _ => False

/-- The assertions of `persist_above_window` hold if it is called, and it writes to its slot
only. -/
def Persists (s : StaticCheckpoints) (a : Build.Action) : Prop :=
  ∀ m behind verify, a = .handle m behind verify → Keeps P E valid s a →
    (s.keep P { E with staticLog := true } valid m).isSome = true

/-- The first assertion holds of a checkpoint that is kept, and the checkpoint fits a slot. -/
def Fits (s : StaticCheckpoints) (a : Build.Action) : Prop :=
  ∀ m behind verify, a = .handle m behind verify → Keeps P E valid s a →
    valid m.msg.id = true ∧ m.size ≤ CheckpointRegion.checkpointSize P

/-- No two replicas share a slot, `sset` has the newest of the pending checkpoints of each replica
as it was received, and it and the certificates of the window are the heap build's. -/
structure Faithful (s : StaticCheckpoints) (p : Build.Pending) (h : HeapCheckpoints) : Prop where
  window : s.store.lastStable = h.lastStable
  apart : ∀ i j k l, s.sset i = some k → s.sset j = some l → i ≠ j → k ≠ l
  newest : ∀ i, Newest (p i) ((static P E valid).fetch i s)
  fetched : ∀ i, (static P E valid).fetch i s = (heap P E).fetch i h
  certs : ∀ n, s.store.InRange P n → Represents (s.store.held P n) (h.certs n)

variable {P E valid} {s : StaticCheckpoints} {h : HeapCheckpoints} {m : Sized Checkpoint}

theorem Refines.faithful (hr : Refines P E s h) {p : Build.Pending}
    (hn : ∀ i, Newest (p i) (SSet.fetch E.n i h.sset)) :
    Faithful P E valid s p h := by
  refine ⟨hr.lastStable, fun i j k l hk hl hne he => ?_, fun i => ?_, hr.fetch, fun n hn => ?_⟩
  · obtain ⟨-, hi, rfl, -⟩ := hr.slots i k hk
    obtain ⟨-, hj, rfl, -⟩ := hr.slots j l hl
    exact hne (replicaIndex_inj hi hj he)
  · rw [hr.fetched valid]
    exact hn i
  · have hinj : Function.Injective (s.store.region.groupBlocks P n).addr :=
      fun i j he => (Prod.mk.inj he).2
    exact (hr.certs n hn).represents hinj (hr.aligned.placed n hn)

theorem verifies_of_keeps {behind verify : Bool}
    (hk : (static P E valid).keeps P E m behind verify s = true) :
    m.msg.id < E.n ∧ m.msg.id ≠ E.id ∧ m.msg.stable = true := by
  simp only [Build.keeps, Build.offers, Build.verifies,
    Env.isReplica, Bool.and_eq_true, decide_eq_true_eq, bne_iff_ne] at hk
  exact ⟨hk.1.2.1.1.1, hk.1.2.1.1.2, hk.1.2.2⟩

/-- Of what `persist_above_window` asserts, only the first assertion depends on more than that the
message is verified and stable. -/
theorem keep_isSome (hid : E.id < E.n) (hn : E.n ≤ P.maxNumReplicas) (hlt : m.msg.id < E.n)
    (hne : m.msg.id ≠ E.id) (hstable : m.msg.stable = true) : (s.keep P E valid m).isSome = true ↔
      valid m.msg.id = true ∧ m.size ≤ CheckpointRegion.checkpointSize P := by
  have hslot : replicaIndex E.id m.msg.id < P.maxNumReplicas - 1 := by
    have := replicaIndex_lt hlt hid hne
    omega
  have hload : loadAboveWindow P E m.msg.id = some (replicaIndex E.id m.msg.id) := by
    unfold loadAboveWindow
    rw [if_pos]
    simp only [Bool.and_eq_true, bne_iff_ne, decide_eq_true_eq]
    exact ⟨hne, by omega⟩
  unfold StaticCheckpoints.keep persistAboveWindow storeAboveWindow
  rw [hload]
  cases valid m.msg.id <;> by_cases hsize :
    m.size ≤ CheckpointRegion.checkpointSize P <;> simp [hstable, hslot, hsize]

theorem persists_iff (hid : E.id < E.n) (hn : E.n ≤ P.maxNumReplicas) (s : StaticCheckpoints)
    (a : Build.Action) :
    Persists P E valid s a ↔ Fits P E valid s a := by
  refine forall_congr' fun m => forall_congr' fun behind =>
    forall_congr' fun verify => forall_congr' fun he => forall_congr' fun hk => ?_
  subst he
  obtain ⟨hlt, hne, hstable⟩ := verifies_of_keeps hk
  exact keep_isSome (E := { E with staticLog := true }) hid hn hlt hne hstable

/-- The assertion on the sender fails for every verified checkpoint. -/
theorem fits_iff (hn : E.n ≤ P.maxNumReplicas) (s : StaticCheckpoints) (a : Build.Action) :
    Fits P E (storeAssertion P) s a ↔ ¬Keeps P E (storeAssertion P) s a := by
  constructor
  · intro hf hk
    cases a with
    | handle m behind verify =>
      have hvalid := (hf m behind verify rfl hk).1
      obtain ⟨hlt, -⟩ := verifies_of_keeps hk
      simp only [storeAssertion, decide_eq_true_eq] at hvalid
      omega
    | onCert n op => exact hk
    | advance n => exact hk
    | move i verify => exact hk
  · exact fun hnot m behind verify _ hk => absurd hk hnot

/-- The runs of the two builds, with what is pending. -/
def staticRun (P : Params) (E : Env) (valid : Nat → Bool) (blocks : Nat × Nat → Sized Checkpoint)
    (above : Nat → Sized Checkpoint) (as : List Build.Action) :
    Option (StaticCheckpoints × Build.Pending) :=
  Run.run ((static P E valid).traced P E) (init { E with staticLog := true } blocks above,
    fun _ => []) as

def heapRun (P : Params) (E : Env) (as : List Build.Action) :
    Option (HeapCheckpoints × Build.Pending) :=
  Run.run ((heap P E).traced P E) (HeapCheckpoints.init { E with staticLog := false },
    fun _ => []) as

/-- Every step of a run of the static build is taken where `ok` holds. -/
def StaticMeets (P : Params) (E : Env) (valid : Nat → Bool) (blocks : Nat × Nat → Sized Checkpoint)
    (above : Nat → Sized Checkpoint) (ok : StaticCheckpoints → Build.Action → Prop)
    (as : List Build.Action) : Prop :=
  Run.Meets ((static P E valid).traced P E) (fun s a => ok s.1 a)
    (init { E with staticLog := true } blocks above, fun _ => []) as

theorem staticMeets_congr {blocks : Nat × Nat → Sized Checkpoint} {above : Nat → Sized Checkpoint}
    {as : List Build.Action} {ok ok' : StaticCheckpoints → Build.Action → Prop}
    (hok : ∀ s a, ok s a ↔ ok' s a) :
    StaticMeets P E valid blocks above ok as ↔ StaticMeets P E valid blocks above ok' as := by
  unfold StaticMeets
  rw [Run.meets_iff, Run.meets_iff]
  simp only [hok]

theorem staticRun_faithful (hf : E.f ≤ P.regionF) {blocks : Nat × Nat → Sized Checkpoint}
    {above : Nat → Sized Checkpoint} {as : List Build.Action} (hother : ∀ a ∈ as, a.FromOther E.id)
    {p : Build.Pending} (hs : staticRun P E valid blocks above as = some (s, p)) :
    ∃ h, heapRun P E as = some (h, p) ∧ Faithful P E valid s p h := by
  obtain ⟨h, hrun, hr⟩ := refines_run hf (refines_init blocks above) hother hs
  refine ⟨h, hrun, hr.faithful fun i => ?_⟩
  have hempty :
    HeapCheckpoints.Kept E.n (HeapCheckpoints.init { E with staticLog := false }, fun _ => []) := by
    intro j
    unfold SSet.fetch
    split <;> rfl
  exact HeapCheckpoints.kept_run (E := { E with staticLog := false }) E rfl hempty hrun i

/-- **Checkpoints above the window.** A run of the static build meets the assertions of
`persist_above_window` if and only if it keeps no checkpoint. With another check in place of the
first assertion, such as that of `load_above_window`, it does where the check holds of the senders
and the messages fit. Every run that the static build gets through is one of the heap build too,
which has the same certificates, and `sset` has the newest pending checkpoint of each replica. -/
theorem aboveWindow_iff (cfg : Cfg) {id : Nat} (hid : id < cfg.n)
    (blocks : Nat × Nat → Sized Checkpoint) (above : Nat → Sized Checkpoint)
    (as : List Build.Action) (hother : ∀ a ∈ as, a.FromOther id) :
    (StaticMeets cfg.P (cfg.env id) (storeAssertion cfg.P)
        blocks above (Persists cfg.P (cfg.env id) (storeAssertion cfg.P)) as ↔
        StaticMeets cfg.P (cfg.env id) (storeAssertion cfg.P)
          blocks above (fun s a => ¬Keeps cfg.P (cfg.env id) (storeAssertion cfg.P) s a) as) ∧
      ∀ valid,
        (StaticMeets cfg.P (cfg.env id) valid blocks above (Persists cfg.P (cfg.env id) valid) as ↔
          StaticMeets cfg.P (cfg.env id) valid blocks above (Fits cfg.P (cfg.env id) valid) as) ∧
        ∀ s p, staticRun cfg.P (cfg.env id) valid blocks above as = some (s, p) →
          ∃ h, heapRun cfg.P (cfg.env id) as = some (h, p) ∧
            Faithful cfg.P (cfg.env id) valid s p h := by
  have hn : (cfg.env id).n ≤ cfg.P.maxNumReplicas := cfg.n_le
  have hf : (cfg.env id).f ≤ cfg.P.regionF := by
    have := cfg.n_le
    simp only [Cfg.env, Params.regionF]
    omega
  refine ⟨?_, fun valid => ⟨?_, fun s p hs => staticRun_faithful hf hother hs⟩⟩
  · exact staticMeets_congr fun s a => (persists_iff hid hn s a).trans (fits_iff hn s a)
  · exact staticMeets_congr fun s a => persists_iff hid hn s a

/-- Replica 1 has the stable checkpoint 8, and replica 0 has the window up to 4. -/
def stableEight : Sized Checkpoint := ⟨⟨8, 7, 1, true⟩, 152⟩

def emptySlots : StaticCheckpoints :=
  init { Replica.fourReplicas.env 0 with staticLog := true } (fun _ => ⟨⟨0, 0, 0, false⟩, 0⟩)
    fun _ => ⟨⟨0, 0, 0, false⟩, 0⟩

/-- The first checkpoint that is kept stops the static build; the heap build keeps it. -/
theorem stableEight_stops :
    Keeps Replica.fourReplicas.P (Replica.fourReplicas.env 0)
      (storeAssertion Replica.fourReplicas.P) emptySlots (.handle stableEight false true) ∧
      ¬Persists Replica.fourReplicas.P (Replica.fourReplicas.env 0)
        (storeAssertion Replica.fourReplicas.P) emptySlots (.handle stableEight false true) ∧
      staticRun Replica.fourReplicas.P (Replica.fourReplicas.env 0)
        (storeAssertion Replica.fourReplicas.P) (fun _ => ⟨⟨0, 0, 0, false⟩, 0⟩)
        (fun _ => ⟨⟨0, 0, 0, false⟩, 0⟩) [.handle stableEight false true] = none ∧
      ((heapRun Replica.fourReplicas.P (Replica.fourReplicas.env 0)
            [.handle stableEight false true]).map fun r => r.1.sset 1) =
        some (some stableEight) := by
  have hkeeps : Keeps Replica.fourReplicas.P (Replica.fourReplicas.env 0)
    (storeAssertion Replica.fourReplicas.P) emptySlots
      (.handle stableEight false true) := by
    unfold Keeps
    decide +kernel
  refine ⟨hkeeps, fun hp => ?_, by decide +kernel, by decide +kernel⟩
  exact absurd (hp stableEight false true rfl hkeeps) (by decide +kernel)

/-- With the check of `load_above_window`, checkpoint 8 is kept and moved when the window reaches
it. -/
theorem aboveWindow_iff_eight :
    ∃ s p h, staticRun Replica.fourReplicas.P (Replica.fourReplicas.env 0)
      (fun i => decide (i < 4)) (fun _ => ⟨⟨0, 0, 0, false⟩, 0⟩)
        (fun _ => ⟨⟨0, 0, 0, false⟩, 0⟩) [.handle stableEight false true,
            .advance 4, .move 1 true] = some (s, p) ∧
      heapRun Replica.fourReplicas.P (Replica.fourReplicas.env 0) [.handle stableEight false true,
          .advance 4, .move 1 true] = some (h, p) ∧
      Faithful Replica.fourReplicas.P (Replica.fourReplicas.env 0)
        (fun i => decide (i < 4)) s p h := by
  obtain ⟨⟨s, p⟩, hs⟩ := Option.isSome_iff_exists.1
    (show (staticRun Replica.fourReplicas.P (Replica.fourReplicas.env 0) (fun i => decide (i < 4))
    (fun _ => ⟨⟨0, 0, 0, false⟩, 0⟩) (fun _ => ⟨⟨0, 0, 0, false⟩, 0⟩)
      [.handle stableEight false true, .advance 4, .move 1 true]).isSome = true by
      decide +kernel)
  have hother :
    ∀ a ∈ ([.handle stableEight false true, .advance 4, .move 1 true] : List Build.Action),
    a.FromOther 0 := by
    simp [Build.Action.FromOther, stableEight]
  obtain ⟨h, hh, hfaithful⟩ :=
    ((aboveWindow_iff Replica.fourReplicas (by decide) _ _ _ hother).2 _).2 s p hs
  exact ⟨s, p, h, hs, hh, hfaithful⟩

end StaticCheckpoints

end TinyBFT
