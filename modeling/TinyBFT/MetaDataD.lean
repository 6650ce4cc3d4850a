import TinyBFT.FetchCalls

/-!
# `Meta_data_d` messages (`Meta_data_d.h`, `Meta_data_d.cc`)

A replica that is asked for a checkpoint which it no longer has answers with the digests of the
partition at the checkpoints that it has, from its last stable one on.

| here | there |
| --- | --- |
| `MetaDataD`      | `Meta_data_d_rep` (`Meta_data_d.h:20-35`); `digests` has an entry for each checkpoint of a window |
| `new`            | the constructor (`Meta_data_d.cc:12-26`) |
| `addDigest`, `digest` | `Meta_data_d.cc:28-52` |
| `lastCheckpoint` | `last_checkpoint` (`Meta_data_d.h:110`) |
| `authenticate`, `verify` | `Meta_data_d.cc:54-86`; `mac` is the result of `verify_mac_in` |
| `answer`         | what `handle(Fetch)` does with the digests (`State.cc:1130-1141`) |

There are `max_out / checkpoint_interval + 1` checkpoints in a window with both of its ends, and as
many entries, but `verify` refuses a message that uses all of them. `is_zero` looks at one word of a
digest, and the index of a sequence number is an `int`.
-/

namespace TinyBFT

/-- Number of entries of `digests`. -/
def Params.maxDigests (P : Params) : Nat := P.maxOut / P.ckptInterval + 1

structure MetaDataD (P : Params) where
  rid : Int
  ls : Int
  l : Int
  i : Int
  digests : Fin P.maxDigests → Digest
  nDigests : Int
  id : Nat
  size : Int

namespace MetaDataD

/-- `sizeof(Meta_data_d_rep)`. -/
def repSize (P : Params) : Nat := 40 + 32 * P.maxDigests

/-- `ALIGNED_SIZE(sizeof(Meta_data_d_rep) + MAC_size)`. -/
def fullSize (P : Params) : Nat := (repSize P + 32 + 7) / 8 * 8

variable {P : Params} (c : TreeCfg) (m : MetaDataD P)

def new (P : Params) (rid : Int) (l i : Nat) (ls : Int) (id : Nat) : Option (MetaDataD P) :=
  if l < c.levels ∧ i < levelSize c.psize l then
    some ⟨rid, ls, l, i, fun _ => 0, 0, id, fullSize P⟩ else none

/-- The index of a sequence number, an `int`. -/
def index (n : Int) : Int := toInt ((n - m.ls) / P.ckptInterval)

def addDigest (n : Int) (d : Digest) : Option (MetaDataD P) :=
  if n % P.ckptInterval = 0 ∧ m.ls ≤ n ∧ n ≤ m.ls + P.maxOut then
    if h : 0 ≤ m.index n ∧ (m.index n).toNat < P.maxDigests then
      some { m with
        digests := Function.update m.digests ⟨(m.index n).toNat, h.2⟩ d
        nDigests := if m.nDigests ≤ m.index n then m.index n + 1 else m.nDigests }
    else none
  else none

/-- `none` where the array is read outside of its bounds. -/
def entry (k : Int) : Option Digest :=
  if h : 0 ≤ k ∧ k.toNat < P.maxDigests then some (m.digests ⟨k.toNat, h.2⟩) else none

def digest (n : Int) : Option (Option Digest) :=
  if n % P.ckptInterval ≠ 0 ∨ n < m.ls then some none
  else if m.nDigests ≤ m.index n then some none
  else (m.entry (m.index n)).map fun d => if d.isZero then none else some d

def lastCheckpoint : Int := m.ls + (m.nDigests - 1) * P.ckptInterval

def authenticate : MetaDataD P := { m with size := fullSize P }

def verify (E : Env) (mac : Bool) : Bool :=
  E.isReplica m.id && E.id != m.id && decide (0 ≤ m.ls) && decide (0 ≤ m.l ∧ m.l < c.levels) &&
    decide (0 ≤ m.i ∧ m.i < levelSize c.psize m.l.toNat) &&
    decide (1 ≤ m.nDigests ∧ m.nDigests < P.maxOut / P.ckptInterval + 1) &&
      decide (fullSize P ≤ m.size) && mac

/-- The message with the digests that were found, and its authenticator. -/
def answer (P : Params) (rid : Int) (l i : Nat) (ls : Int) (id : Nat) (ds : List (Int × Digest)) :
    Option (MetaDataD P) := do
  let m ← ds.foldlM (fun m x => m.addDigest x.1 x.2) (← new c P rid l i ls id)
  some m.authenticate

/-! ## Digests -/

theorem index_eq {n : Int} (h1 : m.ls ≤ n) (h2 : n ≤ m.ls + P.maxOut) :
    m.index n = (n - m.ls) / P.ckptInterval := by
  have hlt := P.maxOut_lt
  have hpos := P.ckptInterval_pos
  have h0 : 0 ≤ (n - m.ls) / P.ckptInterval := Int.ediv_nonneg (by omega) (by omega)
  have hle : (n - m.ls) / P.ckptInterval ≤ n - m.ls := Int.ediv_le_self _ (by omega)
  exact toInt_eq_self (by omega) (by omega)

theorem index_lt {n : Int} (h1 : m.ls ≤ n) (h2 : n ≤ m.ls + P.maxOut) :
    0 ≤ m.index n ∧ (m.index n).toNat < P.maxDigests := by
  rw [index_eq m h1 h2]
  have hpos := P.ckptInterval_pos
  have h0 : 0 ≤ (n - m.ls) / P.ckptInterval := Int.ediv_nonneg (by omega) (by omega)
  have hle : (n - m.ls) / P.ckptInterval ≤ P.maxOut / P.ckptInterval :=
    Int.ediv_le_ediv (by omega) (by omega)
  refine ⟨h0, ?_⟩
  unfold Params.maxDigests
  omega

/-- Two checkpoints of a message have two indices. -/
theorem div_inj {a b ls : Int} (ha : a % P.ckptInterval = 0) (hb : b % P.ckptInterval = 0)
    (h : (a - ls) / P.ckptInterval = (b - ls) / P.ckptInterval) : a = b := by
  have hpos : (0 : Int) < P.ckptInterval := by exact_mod_cast P.ckptInterval_pos
  obtain ⟨x, rfl⟩ := Int.dvd_of_emod_eq_zero ha
  obtain ⟨y, rfl⟩ := Int.dvd_of_emod_eq_zero hb
  rw [sub_eq_neg_add, Int.add_mul_ediv_left _ _ hpos.ne',
    sub_eq_neg_add, Int.add_mul_ediv_left _ _ hpos.ne'] at h
  have hxy : x = y := by omega
  rw [hxy]

/-- What the message says of a checkpoint: the digest at its place, unless it looks null. -/
def Carries (n : Int) (d : Digest) : Prop :=
  n % P.ckptInterval = 0 ∧ m.ls ≤ n ∧ (n - m.ls) / P.ckptInterval < m.nDigests ∧
    m.entry ((n - m.ls) / P.ckptInterval) = some d ∧ d.isZero = false

instance (n : Int) (d : Digest) : Decidable (m.Carries n d) := inferInstanceAs (Decidable (_ ∧ _))

/-- `digest` finds what the message carries, as long as the index fits an `int`. -/
theorem digest_eq {n : Int} (hnum : m.nDigests ≤ P.maxDigests)
    (hfar : n - m.ls < 2 ^ 31 * P.ckptInterval) :
    ∃ o, m.digest n = some o ∧ ∀ d, o = some d ↔ m.Carries n d := by
  have hpos : (0 : Int) < P.ckptInterval := by exact_mod_cast P.ckptInterval_pos
  by_cases h1 : n % P.ckptInterval ≠ 0 ∨ n < m.ls
  · refine ⟨none, if_pos h1, fun d => ⟨nofun, fun h => ?_⟩⟩
    rcases h1 with h1 | h1
    · exact absurd h.1 h1
    · exact absurd h.2.1 (by omega)
  · obtain ⟨h2, h3⟩ : n % P.ckptInterval = 0 ∧ m.ls ≤ n := by omega
    have h0 : 0 ≤ (n - m.ls) / P.ckptInterval := Int.ediv_nonneg (by omega) hpos.le
    have hlt : (n - m.ls) / P.ckptInterval < 2 ^ 31 := Int.ediv_lt_of_lt_mul hpos hfar
    have hidx : m.index n = (n - m.ls) / P.ckptInterval := toInt_eq_self (by omega) hlt
    rw [digest, if_neg h1, hidx]
    by_cases h4 : m.nDigests ≤ (n - m.ls) / P.ckptInterval
    · rw [if_pos h4]
      exact ⟨none, rfl, fun d => ⟨nofun, fun h => absurd h.2.2.1 (by omega)⟩⟩
    · have hentry : m.entry ((n - m.ls) / P.ckptInterval) =
        some (m.digests ⟨((n - m.ls) / P.ckptInterval).toNat, by omega⟩) :=
        dif_pos ⟨h0, by omega⟩
      rw [if_neg h4, hentry]
      refine ⟨_, rfl, fun d => ?_⟩
      simp only [Carries, hentry, Option.ite_none_left_eq_some, Option.some.injEq, Bool.not_eq_true]
      constructor
      · rintro ⟨hz, rfl⟩
        exact ⟨h2, h3, by omega, rfl, hz⟩
      · rintro ⟨-, -, -, rfl, hz⟩
        exact ⟨hz, rfl⟩

theorem Carries.unique {m : MetaDataD P} {n : Int} {d d' : Digest} (h : m.Carries n d)
    (h' : m.Carries n d') : d = d' :=
  Option.some.inj (h.2.2.2.1.symm.trans h'.2.2.2.1)

/-! ## The answer to a `Fetch` -/

/-- The message in which the digests of `ds`, and no others, have been filled in. -/
structure Filled (m : MetaDataD P) (ls : Int) (l i id : Nat) (ds : List (Int × Digest)) : Prop where
  ls_eq : m.ls = ls
  l_eq : m.l = l
  i_eq : m.i = i
  id_eq : m.id = id
  digests : ∀ j, m.digests j = (ds.lookup (ls + (j.1 : Int) * P.ckptInterval)).getD 0
  nDigests_le : ∀ x ∈ ds, (x.1 - ls) / P.ckptInterval < m.nDigests
  nDigests_eq : (ds = [] ∧ m.nDigests = 0) ∨ ∃ x ∈ ds, m.nDigests = (x.1 - ls) / P.ckptInterval + 1

theorem lookup_append_singleton (ds : List (Int × Digest)) (n k : Int) (d : Digest)
    (hn : ∀ x ∈ ds, x.1 ≠ n) :
    (ds ++ [(n, d)]).lookup k = if k = n then some d else ds.lookup k := by
  induction ds with
  | nil =>
    by_cases hk : k = n
    · simp [hk]
    · simp [hk, List.lookup_cons, beq_eq_false_iff_ne.2 hk]
  | cons x xs ih =>
    have hx := hn x List.mem_cons_self
    rw [List.cons_append, List.lookup_cons, List.lookup_cons,
      ih fun y hy => hn y (List.mem_cons_of_mem _ hy)]
    by_cases hk : k = x.1
    · simp [hk, hx]
    · simp [beq_eq_false_iff_ne.2 hk]

theorem addDigest_filled {ls : Int} {l i id : Nat} {ds : List (Int × Digest)} {n : Int} {d : Digest}
    (hm : m.Filled ls l i id ds) (hls : ls % P.ckptInterval = 0) (hn : n % P.ckptInterval = 0)
    (h1 : ls ≤ n) (h2 : n ≤ ls + P.maxOut) (hnew : ∀ x ∈ ds, x.1 ≠ n) :
    ∃ m', m.addDigest n d = some m' ∧ m'.Filled ls l i id (ds ++ [(n, d)]) := by
  obtain ⟨rfl, hl, hi, hid, hdig, hle, heq⟩ := hm
  have hidx := index_eq m h1 h2
  have hlt := index_lt m h1 h2
  have hpos : (0 : Int) < P.ckptInterval := by exact_mod_cast P.ckptInterval_pos
  have hback : m.ls + (n - m.ls) / P.ckptInterval * P.ckptInterval = n := by
    rw [Int.ediv_mul_cancel
      (Int.dvd_sub (Int.dvd_of_emod_eq_zero hn) (Int.dvd_of_emod_eq_zero hls))]
    omega
  refine ⟨_, (if_pos ⟨hn, h1, h2⟩).trans (dif_pos hlt),
    rfl, hl, hi, hid, fun j => ?_, fun x hx => ?_, ?_⟩
  · rw [lookup_append_singleton _ _ _ _ hnew]
    by_cases hj : j = ⟨(m.index n).toNat, hlt.2⟩
    · have hjn : m.ls + (j.1 : Int) * P.ckptInterval = n := by
        rw [hj, Int.toNat_of_nonneg hlt.1, hidx, hback]
      rw [if_pos hjn, hj]
      exact Function.update_self ..
    · have hjn : m.ls + (j.1 : Int) * P.ckptInterval ≠ n := by
        intro h
        apply hj
        apply Fin.ext
        show j.1 = (m.index n).toNat
        rw [hidx, ← h, add_sub_cancel_left, Int.mul_ediv_cancel _ hpos.ne', Int.toNat_natCast]
      simp only [Function.update_of_ne hj, hdig, hjn, if_false]
  · show _ < if m.nDigests ≤ m.index n then m.index n + 1 else m.nDigests
    rcases List.mem_append.1 hx with hx | hx
    · have := hle x hx
      split <;> omega
    · rw [List.mem_singleton.1 hx, ← hidx]
      split <;> omega
  · right
    show ∃ x ∈ ds ++ [(n, d)], (if m.nDigests ≤ m.index n then m.index n + 1 else m.nDigests) = _
    split
    · exact ⟨(n, d), by simp, by rw [hidx]⟩
    · rename_i hgt
      rcases heq with ⟨-, h0⟩ | ⟨x, hx, hxeq⟩
      · omega
      · exact ⟨x, by simp [hx], hxeq⟩

/-- The digests of distinct checkpoints of the window can be filled in. -/
theorem answer_filled {rid : Int} {l i id : Nat} {ls : Int} {ds : List (Int × Digest)}
    (hl : l < c.levels) (hi : i < levelSize c.psize l) (hls : ls % P.ckptInterval = 0)
    (hnd : (ds.map Prod.fst).Nodup)
    (hds : ∀ x ∈ ds, x.1 % P.ckptInterval = 0 ∧ ls ≤ x.1 ∧ x.1 ≤ ls + P.maxOut) :
    ∃ m, answer c P rid l i ls id ds = some m ∧ m.Filled ls l i id ds ∧ m.size = fullSize P := by
  have hfold : ∃ m : MetaDataD P, ds.foldlM (fun m x => m.addDigest x.1 x.2)
      (⟨rid, ls, l, i, fun _ => 0, 0, id, fullSize P⟩ : MetaDataD P) = some m ∧
        m.Filled ls l i id ds := by
    induction ds using List.reverseRecOn with
    | nil => exact ⟨_, rfl, rfl, rfl, rfl, rfl, by simp, by simp, .inl ⟨rfl, rfl⟩⟩
    | append_singleton ds x ih =>
      rw [List.map_append, List.nodup_append] at hnd
      obtain ⟨m, hm, hfill⟩ := ih hnd.1 fun y hy => hds y (by simp [hy])
      obtain ⟨hx1, hx2, hx3⟩ := hds x (by simp)
      obtain ⟨m', hm', hfill'⟩ := addDigest_filled m (d := x.2) hfill hls hx1 hx2 hx3 fun y hy =>
        hnd.2.2 _ (List.mem_map_of_mem hy) _ (by simp)
      exact ⟨m', by rw [List.foldlM_append, hm]; simpa using hm', hfill'⟩
  obtain ⟨m, hm, hfill⟩ := hfold
  refine ⟨m.authenticate, ?_, ⟨hfill.ls_eq, hfill.l_eq,
    hfill.i_eq, hfill.id_eq, hfill.digests, hfill.nDigests_le, hfill.nDigests_eq⟩, rfl⟩
  simp only [answer, new, if_pos (And.intro hl hi), Option.bind_eq_bind, Option.bind_some, hm]

end MetaDataD

namespace FetchState

open Prog

variable {P : Params} {c : TreeCfg} {α β ι : Type} {t u : FetchState}

/-- The program looks things up: it neither changes the state nor sends a message. -/
def Quiet (x : Prog FetchState α) : Prop := ∀ u, (x u).2.s = u.s ∧ (x u).2.sent = u.sent

namespace Quiet

variable {x : Prog FetchState α} {f : α → Prog FetchState β}

theorem pure {a : α} : Quiet (Pure.pure a : Prog FetchState α) := fun _ => ⟨rfl, rfl⟩

theorem stop : Quiet (Prog.stop : Prog FetchState α) := fun _ => ⟨rfl, rfl⟩

theorem get : Quiet Prog.get := fun _ => ⟨rfl, rfl⟩

theorem assert {b : Bool} : Quiet (Prog.assert b) := fun _ => ⟨rfl, rfl⟩

theorem bind (hx : Quiet x) (hf : ∀ a, Quiet (f a)) : Quiet (x >>= f) := by
  intro u
  have h1 := hx u
  rw [bind_apply]
  cases hxu : x u with
  | mk o v =>
    rw [hxu] at h1
    cases o with
    | none => exact h1
    | some a =>
      have h2 := hf a v
      exact ⟨h2.1.trans h1.1, h2.2.trans h1.2⟩

theorem ite {p : Prop} [Decidable p] {x y : Prog FetchState α} (hx : Quiet x) (hy : Quiet y) :
    Quiet (if p then x else y) := by
  split <;> assumption

theorem fetchRec (n : Int) : Quiet (fetchRec P n) := fun _ => ⟨rfl, rfl⟩

theorem collect {x : ι → Prog FetchState (Option β)} (hx : ∀ i, Quiet (x i)) :
    ∀ is, Quiet (Prog.collect x is)
  | [] => .pure
  | i :: is => .bind (hx i) fun _ => .bind (collect hx is) fun _ => .pure

theorem search (k : PartKey) : ∀ fuel n, Quiet (search P k fuel n)
  | 0, _ => .stop
  | fuel + 1, n => .bind .get fun _ => .ite .stop (.bind (.fetchRec n) fun r => by
      cases h : (if r.sd.isZero then none else r.fetch k) with
      | none => simpa only [h] using search k fuel _
      | some p => simpa only [h] using .pure)

theorem getMetaData (n : Int) (l i : Nat) : Quiet (getMetaData P n l i) :=
  .bind .get fun _ => .bind .assert fun _ => .ite .pure (.bind (.search _ _ _) fun _ => .pure)

theorem chosen (m : FetchMsg) : Quiet (chosen P m) :=
  .ite (.bind (.bind .get fun _ => .ite (.bind (.fetchRec _) fun _ => .pure) .pure)
    fun _ => .bind .get fun _ => .pure) .pure

end Quiet

theorem collect_held {m : FetchMsg} :
    ∀ {ns : List Int} {t u : FetchState} {ds : List (Int × Digest)},
    collect (heldDigest P m) ns t = (some ds, u) → ds.map Prod.fst = ns
  | [], _, _, _, h => by
    cases h
    rfl
  | n :: ns, t, u, ds, h => by
    obtain ⟨o, v, ho, h⟩ := bind_eq_some.1 h
    obtain ⟨bs, w, hbs, h⟩ := bind_eq_some.1 h
    obtain ⟨p, v', hp, ho⟩ := bind_eq_some.1 ho
    cases ho
    cases h
    simpa using collect_held hbs

/-- The digests of an answer are those of consecutive checkpoints up to the last one. -/
theorem handleFetch_answer {m : FetchMsg} {ls ls' : Int} {l i : Nat} {ds : List (Int × Digest)}
    (h : handleFetch P c m ls t = (some (), u)) (hsent : u.sent = .metaDataD l i ls' ds :: t.sent) :
    l = m.level ∧ i = m.index ∧ ls' = ls ∧ ds ≠ [] ∧
      ∃ n, (n = ls ∨ n = ls + P.ckptInterval) ∧ ds.map Prod.fst = seqnos P t n := by
  have hne : ∀ {v : FetchState}, v.sent = t.sent → v.sent ≠ .metaDataD l i ls' ds :: t.sent :=
    fun h1 h2 => List.cons_ne_self _ _ (h2.symm.trans h1)
  unfold handleFetch when at h
  split at h
  swap
  · cases h
    exact absurd hsent (hne rfl)
  obtain ⟨n, v, hn, h⟩ := bind_eq_some.1 h
  have hv := Quiet.chosen (P := P) m t
  rw [hn] at hv
  rw [get_bind_apply] at h
  split at h
  · -- a block or the children of a partition
    unfold sendPart at h
    split at h
    · obtain ⟨p, v1, hp, h⟩ := bind_eq_some.1 h
      obtain ⟨b, v2, hb, h⟩ := bind_eq_some.1 h
      cases h
      cases hsent
    · obtain ⟨p, v1, hp, h⟩ := bind_eq_some.1 h
      obtain ⟨ps, v2, hps, h⟩ := bind_eq_some.1 h
      cases h
      cases hsent
  · split at h
    swap
    · cases h
      exact absurd hsent (hne hv.2)
    obtain ⟨r, v1, hr, h⟩ := bind_eq_some.1 h
    have h1 := Quiet.fetchRec (P := P) ls v
    rw [hr] at h1
    rw [get_bind_apply] at h
    obtain ⟨bs, v2, hbs, h⟩ := bind_eq_some.1 h
    have h2 := Quiet.collect (x := heldDigest P m) (fun n =>
      .bind (.getMetaData n m.level m.index) fun _ => .pure)
      (seqnos P v1 (if r.isCleared then ls + P.ckptInterval else ls)) v1
    rw [hbs] at h2
    unfold when at h
    split at h
    swap
    · cases h
      exact absurd hsent (hne (h2.2.trans (h1.2.trans hv.2)))
    · rename_i hemp
      cases h
      simp only [List.cons.injEq, TransferMsg.metaDataD.injEq] at hsent
      obtain ⟨⟨rfl, rfl, rfl, rfl⟩, -⟩ := hsent
      refine ⟨rfl, rfl, rfl, by simpa using hemp, if r.isCleared then ls + P.ckptInterval
        else ls, ?_, ?_⟩
      · split <;> simp
      · have hs : v1.s = t.s := h1.1.trans hv.1
        rw [collect_held hbs]
        simp only [seqnos, CowState.rounds, hs]

/-- The checkpoint `n` is read as it was written: a digest that was added does not look null, and
the `int` index of any other multiple of the interval is not that of a digest. `lc` is the last
checkpoint of the sender. -/
def Legible (P : Params) (ls lc : Int) (ds : List (Int × Digest)) (n : Int) : Prop :=
  match ds.lookup n with
  | some d => d.isZero = false
  | none => n % P.ckptInterval = 0 → ls ≤ n →
    (lc - ls) / P.ckptInterval < toInt ((n - ls) / P.ckptInterval) ∨
      (0 ≤ toInt ((n - ls) / P.ckptInterval) ∧
      ((ds.lookup (ls + toInt ((n - ls) / P.ckptInterval) * P.ckptInterval)).getD 0).isZero = true)

theorem mem_of_lookup {ds : List (Int × Digest)} {n : Int} {d : Digest} (h : ds.lookup n = some d) :
    (n, d) ∈ ds := by
  induction ds with
  | nil => cases h
  | cons x xs ih =>
    rw [List.lookup_cons] at h
    split at h
    · rename_i hn
      cases h
      rw [beq_iff_eq.1 hn]
      exact List.mem_cons_self
    · exact List.mem_cons_of_mem _ (ih h)

/-- What the constructor and `add_digest` need of the digests. -/
theorem seqnos_spec {ls n : Int} (hls : ls % P.ckptInterval = 0)
    (hn : n = ls ∨ n = ls + P.ckptInterval) (hne : seqnos P t n ≠ []) :
    (seqnos P t n).Nodup ∧ (∀ k ∈ seqnos P t n, k % P.ckptInterval = 0 ∧ ls ≤ k ∧ k ≤ t.s.lc) ∧
      ∃ k ∈ seqnos P t n, (k - ls) / P.ckptInterval = (t.s.lc - ls) / P.ckptInterval := by
  have hpos : (0 : Int) < P.ckptInterval := by exact_mod_cast P.ckptInterval_pos
  have hr : 0 < t.s.rounds P n := by
    rw [Nat.pos_iff_ne_zero]
    intro h0
    simp [seqnos, h0] at hne
  refine ⟨?_, fun k hk => ?_, n + ((t.s.rounds P n - 1 : Nat) : Int) * P.ckptInterval, ?_, ?_⟩
  · refine List.Nodup.map (fun a b hab => ?_) List.nodup_range
    have := mul_right_cancel₀ hpos.ne' (add_left_cancel hab)
    exact_mod_cast this
  · obtain ⟨j, rfl, hle⟩ := mem_seqnos hk
    have hmul : 0 ≤ (j : Int) * P.ckptInterval := by positivity
    refine ⟨?_, by omega, hle⟩
    rw [Int.add_mul_emod_self_right]
    rcases hn with rfl | rfl
    · exact hls
    · rwa [Int.add_emod_right]
  · exact List.mem_map.2 ⟨t.s.rounds P n - 1, List.mem_range.2 (by omega), rfl⟩
  · have hcast : ((t.s.rounds P n - 1 : Nat) : Int) = (t.s.lc - n) / P.ckptInterval := by
      unfold CowState.rounds at hr ⊢
      omega
    rw [hcast]
    rcases hn with rfl | rfl
    · rw [add_sub_cancel_left, Int.mul_ediv_cancel _ hpos.ne']
    · have h1 : ls + (P.ckptInterval : Int) + (t.s.lc - (ls + P.ckptInterval)) /
        P.ckptInterval * P.ckptInterval - ls =
          (1 + (t.s.lc - (ls + P.ckptInterval)) / P.ckptInterval) * P.ckptInterval := by ring
      have h2 : t.s.lc - ls = t.s.lc - (ls + P.ckptInterval) + 1 * P.ckptInterval := by ring
      rw [h1, Int.mul_ediv_cancel _ hpos.ne', h2, Int.add_mul_ediv_right _ _ hpos.ne', add_comm]

open MetaDataD in
/-- What the receiver finds at `n`. -/
theorem digest_filled {msg : MetaDataD P} {ls lc n : Int} {l i id : Nat} {ds : List (Int × Digest)}
    (hf : msg.Filled ls l i id ds) (hls : ls % P.ckptInterval = 0) (hlc : lc ≤ ls + P.maxOut)
    (hn : msg.nDigests = (lc - ls) / P.ckptInterval + 1)
    (hds : ∀ x ∈ ds, x.1 % P.ckptInterval = 0 ∧ ls ≤ x.1 ∧ x.1 ≤ lc) :
    msg.digest n = some (ds.lookup n) ↔ Legible P ls lc ds n := by
  have hpos : (0 : Int) < P.ckptInterval := by exact_mod_cast P.ckptInterval_pos
  have hidx : msg.index n = toInt ((n - ls) / P.ckptInterval) := by rw [index, hf.ls_eq]
  cases hlook : ds.lookup n with
  | some d =>
    obtain ⟨h1, h2, h3⟩ : n % P.ckptInterval = 0 ∧ ls ≤ n ∧ n ≤ lc := hds _ (mem_of_lookup hlook)
    have hlt := index_lt msg (n := n) (by rw [hf.ls_eq]; exact h2) (by rw [hf.ls_eq]; omega)
    have hq := index_eq msg (n := n) (by rw [hf.ls_eq]; exact h2) (by rw [hf.ls_eq]; omega)
    have hle : (n - ls) / P.ckptInterval ≤ (lc - ls) / P.ckptInterval :=
      Int.ediv_le_ediv hpos (by omega)
    rw [hf.ls_eq] at hq
    have hback : ls + ((msg.index n).toNat : Int) * P.ckptInterval = n := by
      rw [Int.toNat_of_nonneg hlt.1, hq, Int.ediv_mul_cancel
        (Int.dvd_sub (Int.dvd_of_emod_eq_zero h1) (Int.dvd_of_emod_eq_zero hls))]
      omega
    rw [MetaDataD.digest, if_neg (by rw [hf.ls_eq]; omega),
      if_neg (by omega), entry, dif_pos hlt, Option.map_some]
    simp only [hf.digests, hback, hlook, Option.getD_some, Legible]
    cases d.isZero <;> simp
  | none =>
    simp only [Legible, hlook, ← hidx]
    by_cases h1 : n % P.ckptInterval ≠ 0 ∨ n < msg.ls
    · rw [MetaDataD.digest, if_pos h1]
      rw [hf.ls_eq] at h1
      refine ⟨fun _ h2 h3 => ?_, fun _ => rfl⟩
      rcases h1 with h1 | h1
      · exact absurd h2 h1
      · omega
    · rw [MetaDataD.digest, if_neg h1]
      rw [hf.ls_eq] at h1
      have h2 : n % P.ckptInterval = 0 ∧ ls ≤ n := by omega
      simp only [h2.1, h2.2, true_imp_iff]
      by_cases h3 : msg.nDigests ≤ msg.index n
      · rw [if_pos h3]
        exact ⟨fun _ => .inl (by omega), fun _ => rfl⟩
      · rw [if_neg h3]
        have hM : (lc - ls) / P.ckptInterval ≤ P.maxOut / P.ckptInterval :=
          Int.ediv_le_ediv hpos (by omega)
        by_cases h4 : 0 ≤ msg.index n
        · have hlt : 0 ≤ msg.index n ∧ (msg.index n).toNat < P.maxDigests :=
            ⟨h4, by unfold Params.maxDigests; omega⟩
          rw [entry, dif_pos hlt, Option.map_some]
          simp only [hf.digests, Int.toNat_of_nonneg h4, h4, true_and]
          have h5 : ¬(lc - ls) / (P.ckptInterval : Int) < msg.index n := by omega
          simp [h5]
        · rw [entry, dif_neg fun h => h4 h.1, Option.map_none]
          have h5 : ¬(lc - ls) / (P.ckptInterval : Int) < msg.index n := by omega
          simp [h4, h5]

/-- **A `Meta_data_d` that a replica sends is accepted, and read as it was written,** exactly if the
window of the sender is not full up to its upper end and the digests are `Legible`. -/
theorem metaDataD_agrees {m : FetchMsg} {ls ls' : Int} {l i : Nat} {ds : List (Int × Digest)}
    (hrun : handleFetch P c m ls t = (some (), u))
    (hsent : u.sent = .metaDataD l i ls' ds :: t.sent) (hlevel : m.level < c.levels)
    (hindex : m.index < levelSize c.psize m.level) (h0 : 0 ≤ ls) (hls : ls % P.ckptInterval = 0)
    (hlc : t.s.lc ≤ ls + P.maxOut) {E : Env} {id : Nat} (hid : id < E.n) (hne : E.id ≠ id)
    (rid n : Int) :
    ∃ msg, MetaDataD.answer c P rid l i ls' id ds = some msg ∧
      (msg.verify c E true = true ∧ msg.digest n = some (ds.lookup n) ↔
        (t.s.lc - ls) / P.ckptInterval < P.maxOut / P.ckptInterval ∧ Legible P ls t.s.lc ds n) := by
  obtain ⟨rfl, rfl, rfl, hds, n0, hn0, hkeys⟩ := handleFetch_answer hrun hsent
  have hne' : seqnos P t n0 ≠ [] := by
    rw [← hkeys]
    simpa using hds
  obtain ⟨hnodup, hin, k, hk, hlast⟩ := seqnos_spec hls hn0 hne'
  have hmem : ∀ x ∈ ds, x.1 % P.ckptInterval = 0 ∧ ls' ≤ x.1 ∧ x.1 ≤ t.s.lc := fun x hx =>
    hin x.1 (hkeys ▸ List.mem_map_of_mem hx)
  obtain ⟨msg, hmsg, hfill, hsize⟩ :=
    @MetaDataD.answer_filled _ c rid _ _ id _ _ hlevel hindex hls (hkeys ▸ hnodup) fun x hx =>
    ⟨(hmem x hx).1, (hmem x hx).2.1, (hmem x hx).2.2.trans hlc⟩
  have hpos : (0 : Int) < P.ckptInterval := by exact_mod_cast P.ckptInterval_pos
  have hnum : msg.nDigests = (t.s.lc - ls') / P.ckptInterval + 1 := by
    have hge : (t.s.lc - ls') / P.ckptInterval < msg.nDigests := by
      rw [← hkeys] at hk
      obtain ⟨x, hx, rfl⟩ := List.mem_map.1 hk
      exact hlast ▸ hfill.nDigests_le x hx
    rcases hfill.nDigests_eq with ⟨hnil, -⟩ | ⟨x, hx, heq⟩
    · exact absurd hnil hds
    · have hle : (x.1 - ls') / P.ckptInterval ≤ (t.s.lc - ls') / P.ckptInterval :=
        Int.ediv_le_ediv hpos (by have := hmem x hx; omega)
      omega
  have hlc0 : 0 ≤ (t.s.lc - ls') / P.ckptInterval := by
    have := (hin k hk).2
    exact Int.ediv_nonneg (by omega) hpos.le
  refine ⟨msg, hmsg, ?_⟩
  rw [digest_filled hfill hls hlc hnum hmem]
  refine and_congr_left fun _ => ?_
  have hv : msg.verify c E true = decide (1 ≤ msg.nDigests ∧
    msg.nDigests < P.maxOut / P.ckptInterval + 1) := by
    simp [MetaDataD.verify, Env.isReplica, hfill.id_eq,
      hfill.ls_eq, hfill.l_eq, hfill.i_eq, hid, hne, h0, hlevel, hindex, hsize]
  rw [hv, decide_eq_true_eq]
  omega

/-- The digest of block 0 from checkpoint 128 on, with a 7 in it. -/
def sevenDigest : Digest := 0x810007

/-- Checkpoint 0 is stable and the whole window is executed: the answer has the last entry of
`digests`, and is refused. -/
theorem full_window_refused : ∃ t u msg,
    Run.run (step Params.default CowState.twoBlocks)
      (start Params.default CowState.twoBlocks fun _ => 0)
        [.write (.cow 1 2) [(1, 7)], .checkpoint 128, .checkpoint 256] = some t ∧
      handleFetch Params.default CowState.twoBlocks ⟨1, 0, -1, -1, false, true⟩ 0 t = (some (), u) ∧
      u.sent = .metaDataD 1 0 0 [(128, sevenDigest), (256, sevenDigest)] :: t.sent ∧
      MetaDataD.answer CowState.twoBlocks Params.default 5 1 0 0 2 [(128, sevenDigest),
          (256, sevenDigest)] = some msg ∧
      msg.verify CowState.twoBlocks ⟨4, 1, 1, false⟩ true = false := by
  obtain ⟨t, ht, h⟩ :=
    (Option.any_eq_true _ _).1 (show (Run.run (step Params.default CowState.twoBlocks)
    (start Params.default CowState.twoBlocks fun _ => 0) [.write (.cow 1 2) [(1, 7)],
      .checkpoint 128, .checkpoint 256]).any (fun t =>
      decide ((handleFetch Params.default CowState.twoBlocks ⟨1, 0, -1, -1, false, true⟩ 0 t).1 =
        some () ∧
        (handleFetch Params.default CowState.twoBlocks ⟨1, 0, -1, -1, false, true⟩ 0 t).2.sent =
          .metaDataD 1 0 0 [(128, sevenDigest), (256, sevenDigest)] :: t.sent)) =
            true by decide +kernel)
  obtain ⟨msg, hmsg, hv⟩ :=
    (Option.any_eq_true _ _).1 (show (MetaDataD.answer CowState.twoBlocks Params.default 5 1 0 0 2
    [(128, sevenDigest), (256, sevenDigest)]).any (fun msg =>
      !msg.verify CowState.twoBlocks ⟨4, 1, 1, false⟩ true) = true
    by decide +kernel)
  obtain ⟨h1, h2⟩ := of_decide_eq_true h
  exact ⟨t, _, msg, ht, Prod.ext h1 rfl, h2, hmsg, by simpa using hv⟩

/-- A batch less, and it is accepted and read. -/
theorem metaDataD_agrees_seven : ∃ t u msg,
    Run.run (step Params.default CowState.twoBlocks)
      (start Params.default CowState.twoBlocks fun _ => 0)
        [.write (.cow 1 2) [(1, 7)], .checkpoint 128] = some t ∧
      handleFetch Params.default CowState.twoBlocks ⟨1, 0, -1, -1, false, true⟩ 0 t = (some (), u) ∧
      MetaDataD.answer CowState.twoBlocks Params.default 5 1 0 0 2 [(128, sevenDigest)] = some msg ∧
      msg.verify CowState.twoBlocks ⟨4, 1, 1, false⟩ true = true ∧
        msg.digest 128 = some (some sevenDigest) := by
  obtain ⟨t, ht, h⟩ :=
    (Option.any_eq_true _ _).1 (show (Run.run (step Params.default CowState.twoBlocks)
    (start Params.default CowState.twoBlocks fun _ => 0) [.write (.cow 1 2) [(1, 7)],
      .checkpoint 128]).any (fun t =>
      decide ((handleFetch Params.default CowState.twoBlocks ⟨1, 0, -1, -1, false, true⟩ 0 t).1 =
        some () ∧
        (handleFetch Params.default CowState.twoBlocks ⟨1, 0, -1, -1, false, true⟩ 0 t).2.sent =
          .metaDataD 1 0 0 [(128, sevenDigest)] :: t.sent ∧ t.s.lc = 128)) = true by decide +kernel)
  obtain ⟨h1, h2, hlc⟩ := of_decide_eq_true h
  obtain ⟨msg, hmsg, hiff⟩ :=
    metaDataD_agrees (Prod.ext h1 rfl) h2 (by decide) (by decide) (by decide) (by decide)
    (by rw [hlc]; decide) (show 2 < (⟨4, 1, 1, false⟩ : Env).n by decide) (by decide) 5 128
  refine ⟨t, _, msg, ht, Prod.ext h1 rfl, hmsg, hiff.2 ⟨by rw [hlc]; decide, ?_⟩⟩
  rw [hlc]
  show Digest.isZero sevenDigest = false
  decide

end FetchState

end TinyBFT
