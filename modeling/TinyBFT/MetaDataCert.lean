import TinyBFT.KMax
import TinyBFT.MetaDataD
import TinyBFT.Lib.Run
import Mathlib.Data.Finset.Card
import Mathlib.Data.Finset.Prod
import Mathlib.Data.List.Perm.Basic

/-!
# Certificates of `Meta_data_d` messages (`Meta_data_cert.h`, `Meta_data_cert.cc`)

The certificate of a partition counts, for each checkpoint and digest, the replicas whose last
message has it. A message takes the place of an earlier one of its sender, whose votes are taken
back in the pass that adds the new ones.

| here | there |
| --- | --- |
| `PartVal`        | `Part_val` (`Meta_data_cert.h:63-74`) |
| `Tally`          | what the certificate has beside the messages; `vals` has `cur_size` elements |
| `MetaDataCert`   | the certificate in the heap build, with `last_mdds` |
| `Incoming`       | an argument of `add`; `mac` is the result of `verify_mac_in` |
| `drop`           | the `do` loop at a value without votes (`Meta_data_cert.cc:102-109`) |
| `visit`, `pass`  | the body of the first `for` loop and the loop (`Meta_data_cert.cc:88-119`) |
| `appendNew`      | the second one (`Meta_data_cert.cc:124-134`) |
| `settle`         | from the test of `last_stable` on (`Meta_data_cert.cc:72-135`) |
| `add`, `clear`   | `Meta_data_cert.cc:33-146` |

Three things go wrong. The value that a `drop` moves to its place is not looked at, since the index
goes on. A `drop` of the last value clears what `val.c < ls` reads, so that all values are dropped.
And `last_stables` is never written to, so `ls` stays 0.
-/

namespace TinyBFT

structure PartVal where
  d : Digest
  c : Int
  count : Int
deriving DecidableEq, Repr

structure Tally where
  lastStables : List Int
  ls : Int
  vals : List PartVal
  c : Int
  d : Digest
  hasMine : Bool
deriving DecidableEq, Repr

structure Incoming (P : Params) where
  m : MetaDataD P
  mine : Bool
  mac : Bool

/-- `m->digest(val.c, md) && md == val.d`. -/
def MetaDataD.votes {P : Params} (m : MetaDataD P) (val : PartVal) : Option Bool :=
  (m.digest val.c).map (· == some val.d)

namespace Tally

variable {P : Params} (E : Env)

def new (n : Nat) : Tally := ⟨List.replicate n 0, 0, [], -1, 0, false⟩

/-- `max_size`. -/
def maxSize (P : Params) : Nat := E.n * P.maxDigests

/-- `vals[i]` is dropped. It reads `val.c` of `vals[i]`, which is `-1` once it is the last value. -/
def drop (ls : Int) (i : Nat) : Nat → List PartVal → Option (List PartVal)
  | 0, _ => none
  | fuel + 1, vals =>
    if i + 1 < vals.length then do
      let last ← vals.getLast?
      if last.c < 0 then none
      else
        let vals := (vals.set i last).dropLast
        if last.c < ls ∧ vals ≠ [] then drop ls i fuel vals else some vals
    else
      let vals := vals.dropLast
      if -1 < ls ∧ vals ≠ [] then drop ls i fuel vals else some vals

/-- The variables of the loop. -/
structure Pass where
  vals : List PartVal
  matched : Nat → Bool
  c : Int
  d : Digest

/-- `om && om->digest(val.c, md) && md == val.d`. -/
def oldVote (om : Option (MetaDataD P)) (val : PartVal) : Option Bool :=
  match om with
  | some om => om.votes val
  | none => some false

def recounted (old new : Bool) (val : PartVal) : PartVal :=
  { val with count := val.count - (if old then 1 else 0) + if new then 1 else 0 }

/-- `matched[(val.c - m->last_stable()) / checkpoint_interval] = true`, if the new message votes for
the value. -/
def note (m : MetaDataD P) (new : Bool) (val : PartVal) (matched : Nat → Bool) :
    Option (Nat → Bool) :=
  let k := (val.c - m.ls) / P.ckptInterval
  if !new then some matched
  else if 0 ≤ k ∧ k < P.maxDigests then some (Function.update matched k.toNat true)
  else none

/-- One value: the vote of the old message is taken back, and that of the new one is added. -/
def visit (om : Option (MetaDataD P)) (m : MetaDataD P) (ls : Int) (i : Nat) (s : Pass) :
    Option Pass := do
  let val ← s.vals[i]?
  let old ← oldVote om val
  let new ← m.votes val
  let matched ← note m new val s.matched
  let val := recounted old new val
  let vals := s.vals.set i val
  if val.count = 0 ∨ val.c < ls then do
    let vals ← drop ls i vals.length vals
    some { s with vals, matched }
  else if E.f + 1 ≤ val.count ∧ s.c < val.c then some ⟨vals, matched, val.c, val.d⟩
  else some { s with vals, matched }

/-- The index goes up or the values get fewer, so there are as many rounds as values at most. -/
def pass (om : Option (MetaDataD P)) (m : MetaDataD P) (ls : Int) : Nat → Nat → Pass → Option Pass
  | 0, _, s => some s
  | fuel + 1, i, s =>
    if i < s.vals.length then do pass om m ls fuel (i + 1) (← visit E om m ls i s) else some s

/-- The digest at index `j` of the message, if it was not matched. -/
def appendOne (m : MetaDataD P) (matched : Nat → Bool) (vals : List PartVal) (j : Nat) :
    Option (List PartVal) :=
  let n := m.ls + j * P.ckptInterval
  if P.maxDigests ≤ j then none
  else if matched j then some vals
  else do
    match ← m.digest n with
    | none => some vals
    | some d1 => if vals.length < maxSize E P then some (vals ++ [⟨d1, n, 1⟩]) else none

/-- From `last_stable` to `last_checkpoint` there are `n_digests` checkpoints. -/
def appendNew (m : MetaDataD P) (matched : Nat → Bool) (vals : List PartVal) :
    Option (List PartVal) :=
  (List.range m.nDigests.toNat).foldlM (appendOne E m matched) vals

def recount (om : Option (MetaDataD P)) (m : MetaDataD P) (t : Tally) : Option Tally := do
  let s ← pass E om m t.ls t.vals.length 0 ⟨t.vals, fun _ => false, t.c, t.d⟩
  let vals ← appendNew E m s.matched s.vals
  some { t with vals, c := s.c, d := s.d }

/-- `om` is the message that `m` replaces; `false` if `m` is below the stable checkpoint. -/
def settle (om : Option (MetaDataD P)) (m : MetaDataD P) (t : Tally) : Option (Tally × Bool) :=
  if t.ls < m.ls then
    (recount E om m { t with ls := kMax (E.f + 1) t.lastStables (2 ^ 63 - 1) }).map (·, true)
  else if m.ls < t.ls then some (t, false)
  else (recount E om m t).map (·, true)

def cvalue (t : Tally) : Option (Int × Digest) := if t.c < 0 then none else some (t.c, t.d)

end Tally

structure MetaDataCert (P : Params) where
  tally : Tally
  lastMdds : Nat → Option (MetaDataD P)

namespace MetaDataCert

variable {P : Params} (c : TreeCfg) (E : Env)

def new (P : Params) : MetaDataCert P := ⟨Tally.new E.n, fun _ => none⟩

def clear (s : MetaDataCert P) : MetaDataCert P :=
  ⟨{ s.tally with lastStables := List.replicate E.n 0, ls := 0,
                  vals := [], c := -1, hasMine := false }, fun _ => none⟩

/-- `m` is no later than the message `om`. -/
def stale (om : Option (MetaDataD P)) (m : MetaDataD P) : Bool :=
  om.any fun om => m.lastCheckpoint ≤ om.lastCheckpoint

def add (x : Incoming P) (s : MetaDataCert P) : Option (MetaDataCert P × Bool) :=
  let t := if x.mine then { s.tally with hasMine := true } else s.tally
  if x.mine || x.m.verify c E x.mac then
    if !(x.mine || x.m.id != E.id) then none
    else if stale (s.lastMdds x.m.id) x.m then some ({ s with tally := t }, false)
    else do
      let (t, added) ← t.settle E (s.lastMdds x.m.id) x.m
      some (⟨t, Function.update s.lastMdds x.m.id (if added then some x.m else none)⟩, added)
  else some ({ s with tally := t }, false)

end MetaDataCert

/-! ## The pass -/

namespace Tally

variable {P : Params} {E : Env}

theorem drop_moved {i fuel : Nat} {vals : List PartVal} {last : PartVal} (hi : i + 1 < vals.length)
    (hl : vals.getLast? = some last) (hc : 0 ≤ last.c) :
    drop 0 i (fuel + 1) vals = some (vals.set i last).dropLast := by
  have h : ¬last.c < 0 := by omega
  simp [drop, hi, hl, h]

/-- Once the last value is dropped, so are the others. -/
theorem drop_last {i : Nat} :
    ∀ {fuel : Nat} {vals : List PartVal}, vals ≠ [] → vals.length ≤ fuel → vals.length ≤ i + 1 →
    drop 0 i fuel vals = some []
  | 0, vals, hne, hfuel, _ => absurd (List.length_eq_zero_iff.1 (by omega)) hne
  | fuel + 1, vals, hne, hfuel, hi => by
    have hlen : vals.dropLast.length = vals.length - 1 := List.length_dropLast
    rw [drop, if_neg (by omega)]
    by_cases hnil : vals.dropLast = []
    · simp [hnil]
    · simp only [hnil, ne_eq, not_false_eq_true, and_true, show (-1 : Int) < 0 by decide, if_true]
      exact drop_last hnil (by omega) (by omega)

/-- How the old and the new message vote on a value. -/
structure Ballot (om : Option (MetaDataD P)) (m : MetaDataD P) (o n : PartVal → Bool)
    (e : PartVal) : Prop where
  old : oldVote om e = some (o e)
  new : m.votes e = some (n e)
  room : n e = true → 0 ≤ (e.c - m.ls) / P.ckptInterval ∧
    (e.c - m.ls) / P.ckptInterval < P.maxDigests

/-- The value with its new count. -/
def adjust (o n : PartVal → Bool) (e : PartVal) : PartVal := recounted (o e) (n e) e

/-- No vote is left. -/
def dead (o n : PartVal → Bool) (e : PartVal) : Bool := (adjust o n e).count == 0

/-- The matched indices after a value. -/
def mark (m : MetaDataD P) (n : PartVal → Bool) (e : PartVal) (matched : Nat → Bool) : Nat → Bool :=
  if n e then Function.update matched ((e.c - m.ls) / P.ckptInterval).toNat true else matched

/-- The value `c`, `d` after a value that keeps a vote. -/
def choose (E : Env) (e : PartVal) (cd : Int × Digest) : Int × Digest :=
  if E.f + 1 ≤ e.count ∧ cd.1 < e.c then (e.c, e.d) else cd

variable {om : Option (MetaDataD P)} {m : MetaDataD P} {o n : PartVal → Bool}

theorem adjust_of_not {e : PartVal} (ho : o e = false) (hn : n e = false) :
    adjust o n e = e := by simp [adjust, recounted, ho, hn]

theorem dead_of_not {e : PartVal} (ho : o e = false) (hn : n e = false) (hc : 1 ≤ e.count) :
    dead o n e = false := by
  rw [dead, adjust_of_not ho hn, beq_eq_false_iff_ne]
  omega

theorem note_eq {e : PartVal} (hb : Ballot om m o n e) (matched : Nat → Bool) :
    note m (n e) e matched = some (mark m n e matched) := by
  unfold note mark
  cases hn : n e with
  | false => simp
  | true => simp [hb.room hn]

section Visit

variable {l rest : List PartVal} {e : PartVal} {matched : Nat → Bool} {cd : Int × Digest}

theorem visit_eq (hb : Ballot om m o n e) (hc : 0 ≤ e.c) :
    visit E om m 0 l.length ⟨l ++ e :: rest, matched, cd.1, cd.2⟩ =
      if dead o n e then
        (drop 0 l.length (l ++ adjust o n e :: rest).length (l ++ adjust o n e :: rest)).map
          fun vals =>
          ⟨vals, mark m n e matched, cd.1, cd.2⟩
      else
  some ⟨l ++ adjust o n e :: rest, mark m n e matched, (choose E (adjust o n e) cd).1,
    (choose E (adjust o n e) cd).2⟩ := by
  have hget : (l ++ e :: rest)[l.length]? = some e := by simp
  have hset : (l ++ e :: rest).set l.length (adjust o n e) = l ++ adjust o n e :: rest := by simp
  have hdead : (adjust o n e).count = 0 ∨ (adjust o n e).c < 0 ↔ dead o n e = true := by
    have : (adjust o n e).c = e.c := rfl
    rw [dead, beq_iff_eq]
    omega
  simp only [visit, hget, Option.bind_eq_bind, Option.bind_some, hb.old, hb.new, note_eq hb]
  rw [show recounted (o e) (n e) e = adjust o n e from rfl, hset]
  simp only [hdead]
  split
  · generalize drop 0 _ _ _ = r
    cases r <;> rfl
  · unfold choose
    split <;> rfl

theorem visit_alive (hb : Ballot om m o n e) (hc : 0 ≤ e.c) (hd : dead o n e = false) :
    visit E om m 0 l.length ⟨l ++ e :: rest, matched, cd.1, cd.2⟩ =
      some ⟨l ++ adjust o n e :: rest, mark m n e matched,
          (choose E (adjust o n e) cd).1, (choose E (adjust o n e) cd).2⟩ := by
  rw [visit_eq hb hc, hd]
  rfl

/-- The last value takes the place of the dropped one. -/
theorem visit_moved {last : PartVal} (hb : Ballot om m o n e) (hc : 0 ≤ e.c)
    (hd : dead o n e = true) (hl : 0 ≤ last.c) :
    visit E om m 0 l.length ⟨l ++ e :: (rest ++ [last]), matched, cd.1, cd.2⟩ =
      some ⟨l ++ last :: rest, mark m n e matched, cd.1, cd.2⟩ := by
  have happ : ∀ x : PartVal, l ++ x :: (rest ++ [last]) = (l ++ x :: rest) ++ [last] := by simp
  have hset : (l ++ adjust o n e :: (rest ++ [last])).set l.length last =
    (l ++ last :: rest) ++ [last] := by simp
  have hlast : (l ++ adjust o n e :: (rest ++ [last])).getLast? = some last := by
    rw [happ, List.getLast?_concat]
  rw [visit_eq hb hc, hd, if_pos rfl]
  obtain ⟨k, hk⟩ : ∃ k, (l ++ adjust o n e :: (rest ++ [last])).length = k + 1 :=
    ⟨l.length + rest.length + 1, by simp; omega⟩
  rw [hk, drop_moved (by simp) hlast hl, hset, List.dropLast_concat]
  rfl

theorem visit_last (hb : Ballot om m o n e) (hc : 0 ≤ e.c) (hd : dead o n e = true) :
    visit E om m 0 l.length ⟨l ++ [e], matched, cd.1, cd.2⟩ =
      some ⟨[], mark m n e matched, cd.1, cd.2⟩ := by
  rw [visit_eq hb hc, hd, if_pos rfl, drop_last (by simp) le_rfl (by simp)]
  rfl

end Visit

theorem pass_nil {fuel : Nat} {l : List PartVal} {matched : Nat → Bool} {c : Int} {d : Digest} :
    pass E om m 0 fuel l.length ⟨l, matched, c, d⟩ = some ⟨l, matched, c, d⟩ := by
  cases fuel with
  | zero => rfl
  | succ fuel => simp [pass]

theorem pass_cons {fuel : Nat} {l rest : List PartVal} {e : PartVal} {matched : Nat → Bool}
    {cd : Int × Digest} {s : Pass}
    (h : visit E om m 0 l.length ⟨l ++ e :: rest, matched, cd.1, cd.2⟩ = some s) :
    pass E om m 0 (fuel + 1) l.length ⟨l ++ e :: rest, matched, cd.1, cd.2⟩ =
      pass E om m 0 fuel (l.length + 1) s := by
  rw [pass, if_pos (by simp), h]
  rfl

/-- Nobody votes on the values that are moved to the places of others. -/
def Orderly (o n : PartVal → Bool) (vals : List PartVal) : Prop :=
  ∀ e ∈ vals.drop (vals.length - (vals.filter (dead o n)).length), o e = false ∧ n e = false

theorem Orderly.alive {e : PartVal} {rest : List PartVal} (h : Orderly o n (e :: rest))
    (hd : dead o n e = false) : Orderly o n rest := by
  intro x hx
  refine h x ?_
  have hle := List.length_filter_le (dead o n) rest
  have hlen : (e :: rest).length - ((e :: rest).filter (dead o n)).length =
    rest.length - (rest.filter (dead o n)).length + 1 := by
    simp only [List.filter_cons, hd, Bool.false_eq_true, if_false, List.length_cons]
    omega
  rw [hlen]
  exact hx

/-- Behind a dead value there is one that takes its place. -/
theorem Orderly.dead {e : PartVal} {rest : List PartVal} (h : Orderly o n (e :: rest))
    (hd : dead o n e = true) (hc : ∀ x ∈ e :: rest, 1 ≤ x.count) :
    ∃ rest' last, rest = rest' ++ [last] ∧ o last = false ∧ n last = false ∧ Orderly o n rest' := by
  have hle := List.length_filter_le (Tally.dead o n) rest
  have hlen : (e :: rest).length - ((e :: rest).filter (Tally.dead o n)).length =
    rest.length - (rest.filter (Tally.dead o n)).length := by
    simp only [List.filter_cons, hd, if_true, List.length_cons]
    omega
  unfold Orderly at h
  rw [hlen] at h
  rcases List.eq_nil_or_concat rest with rfl | ⟨rest', last, rfl⟩
  · obtain ⟨ho, hn⟩ := h e (by simp)
    rw [dead_of_not ho hn (hc e (by simp))] at hd
    cases hd
  · rw [List.concat_eq_append] at *
    have hlast : o last = false ∧ n last = false := by
      refine h last ?_
      by_cases hk :
        (rest' ++ [last]).length - ((rest' ++ [last]).filter (Tally.dead o n)).length = 0
      · rw [hk]
        simp
      · obtain ⟨k, hk⟩ := Nat.exists_eq_succ_of_ne_zero hk
        rw [hk, List.drop_succ_cons, List.drop_append_of_le_length (by simp at hk; omega)]
        simp
    refine ⟨rest', last, rfl, hlast.1, hlast.2, fun x hx => h x ?_⟩
    have hdl : Tally.dead o n last = false := dead_of_not hlast.1 hlast.2 (hc last (by simp))
    have hle' := List.length_filter_le (Tally.dead o n) rest'
    have hlen' : (rest' ++ [last]).length - ((rest' ++ [last]).filter (Tally.dead o n)).length =
        rest'.length - (rest'.filter (Tally.dead o n)).length + 1 := by
      simp only [List.filter_append, List.filter_cons, hdl,
        Bool.false_eq_true, if_false, List.filter_nil, List.append_nil, List.length_append,
        List.length_singleton]
      omega
    rw [hlen', List.drop_succ_cons, List.drop_append_of_le_length (by omega)]
    exact List.mem_append_left _ hx

/-- What the pass makes of the values of `todo`. -/
structure Swept (E : Env) (m : MetaDataD P) (o n : PartVal → Bool) (l todo : List PartVal)
    (matched : Nat → Bool) (cd : Int × Digest) (s : Pass) :
    Prop where
  vals : s.vals.Perm (l ++ (todo.filter (!dead o n ·)).map (adjust o n))
  matched : ∀ j, s.matched j = true ↔ matched j = true ∨ ∃ e ∈ todo,
    n e = true ∧ ((e.c - m.ls) / P.ckptInterval).toNat = j
  chosen : (s.c, s.d) = cd ∨ ∃ e ∈ todo, dead o n e = false ∧
    E.f + 1 ≤ (adjust o n e).count ∧ (s.c, s.d) = (e.c, e.d)

theorem mark_iff {e : PartVal} {matched : Nat → Bool} {j : Nat} : mark m n e matched j = true ↔
    matched j = true ∨ (n e = true ∧ ((e.c - m.ls) / P.ckptInterval).toNat = j) := by
  unfold mark
  cases hn : n e with
  | false => simp
  | true =>
    by_cases hj : ((e.c - m.ls) / P.ckptInterval).toNat = j
    · simp [hj]
    · simp [hj, Function.update_of_ne (Ne.symm hj)]

theorem Swept.alive {l rest : List PartVal} {e : PartVal} {matched : Nat → Bool} {cd : Int × Digest}
    {s : Pass} (hd : dead o n e = false) (h : Swept E m
      o n (l ++ [adjust o n e]) rest (mark m n e matched) (choose E (adjust o n e) cd) s) :
    Swept E m o n l (e :: rest) matched cd s where
  vals := by simpa [hd] using h.vals
  matched j := by
    rw [h.matched, mark_iff]
    simp [or_assoc]
  chosen := by
    rcases h.chosen with hc | ⟨x, hx, h1⟩
    · unfold choose at hc
      split at hc
      · rename_i hf
        exact .inr ⟨e, List.mem_cons_self, hd, hf.1, hc⟩
      · exact .inl hc
    · exact .inr ⟨x, List.mem_cons_of_mem _ hx, h1⟩

/-- Values that nobody votes on keep their count. -/
theorem Swept.moved {l rest : List PartVal} {e last : PartVal} {matched : Nat → Bool}
    {cd : Int × Digest} {s : Pass} (hd : dead o n e = true) (ho : o last = false)
    (hn : n last = false) (hc : 1 ≤ last.count)
    (h : Swept E m o n (l ++ [last]) rest (mark m n e matched) cd s) :
    Swept E m o n l (e :: (rest ++ [last])) matched cd s where
  vals := by
    have hl : dead o n last = false := dead_of_not ho hn hc
    refine h.vals.trans ?_
    simp only [List.append_assoc, List.filter_cons, hd, List.filter_append,
      hl, Bool.not_true, Bool.not_false, Bool.false_eq_true, if_false, if_true,
      List.filter_nil, List.map_append, List.map_cons, List.map_nil, adjust_of_not ho hn]
    exact List.Perm.append_left _ List.perm_append_comm
  matched j := by
    rw [h.matched, mark_iff, or_assoc]
    simp [or_and_right, exists_or, hn]
  chosen := by
    rcases h.chosen with hc | ⟨x, hx, h1⟩
    · exact .inl hc
    · exact .inr ⟨x, by simp [hx], h1⟩

/-- In order, the pass counts every value again and drops those without votes. -/
theorem pass_orderly :
    ∀ {fuel : Nat} {l todo : List PartVal} {matched : Nat → Bool} {cd : Int × Digest},
      todo.length ≤ fuel →
    (∀ e ∈ todo, Ballot om m o n e ∧ 0 ≤ e.c ∧ 1 ≤ e.count) → Orderly o n todo →
    ∃ s, pass E om m 0 fuel l.length ⟨l ++ todo, matched, cd.1, cd.2⟩ = some s ∧
      Swept E m o n l todo matched cd s
  | fuel, l, [], matched, cd, _, _, _ => by
    rw [List.append_nil, pass_nil]
    exact ⟨_, rfl, by simp, by simp, .inl rfl⟩
  | fuel + 1, l, e :: rest, matched, cd, hfuel, hall, hord => by
    obtain ⟨hb, hc, -⟩ := hall e List.mem_cons_self
    cases hd : dead o n e with
    | false =>
      obtain ⟨s, hs, hsw⟩ := @pass_orderly fuel (l ++ [adjust o n e]) rest (mark m n e matched)
        (choose E (adjust o n e) cd) (by simpa using hfuel)
          (fun x hx => hall x (List.mem_cons_of_mem _ hx)) (hord.alive hd)
      refine ⟨s, ?_, hsw.alive hd⟩
      rw [pass_cons (visit_alive hb hc hd)]
      simpa using hs
    | true =>
      obtain ⟨rest', last, rfl, ho, hn, hord'⟩ := hord.dead hd fun x hx => (hall x hx).2.2
      have hlast := hall last (by simp)
      obtain ⟨s, hs, hsw⟩ := @pass_orderly fuel (l ++ [last]) rest' (mark m n e matched) cd
        (by simp at hfuel; omega) (fun x hx => hall x (by simp [hx])) hord'
      refine ⟨s, ?_, hsw.moved hd ho hn hlast.2.2⟩
      rw [pass_cons (visit_moved hb hc hd hlast.2.1)]
      simpa using hs

/-- A single value is dropped without harm. -/
theorem pass_single {fuel : Nat} {e : PartVal} {matched : Nat → Bool} {cd : Int × Digest}
    (hb : Ballot om m o n e) (hc : 0 ≤ e.c) (hd : dead o n e = true) :
    ∃ s, pass E om m 0 (fuel + 1) 0 ⟨[e], matched, cd.1, cd.2⟩ = some s ∧
      Swept E m o n [] [e] matched cd s := by
  have hv : visit E om m 0 ([] : List PartVal).length ⟨[] ++ [e], matched, cd.1, cd.2⟩ = _ :=
    visit_last hb hc hd
  refine ⟨⟨[], mark m n e matched, cd.1, cd.2⟩,
    ?_, by simp [hd], fun j => by rw [mark_iff]; simp, .inl rfl⟩
  refine (@pass_cons _ _ _ _ fuel [] [] e matched cd _ hv).trans ?_
  cases fuel <;> simp [pass]

/-- The swaps do no harm. -/
def Tidy (o n : PartVal → Bool) (vals : List PartVal) : Prop := vals.length ≤ 1 ∨ Orderly o n vals

theorem pass_tidy {vals : List PartVal} {matched : Nat → Bool} {cd : Int × Digest}
    (hall : ∀ e ∈ vals, Ballot om m o n e ∧ 0 ≤ e.c ∧ 1 ≤ e.count) (ht : Tidy o n vals) :
    ∃ s, pass E om m 0 vals.length 0 ⟨vals, matched, cd.1, cd.2⟩ = some s ∧
      Swept E m o n [] vals matched cd s := by
  have hgo : Orderly o n vals → ∃ s, pass E om m 0 vals.length 0 ⟨vals, matched, cd.1, cd.2⟩ =
    some s ∧ Swept E m o n [] vals matched cd s :=
    fun h => @pass_orderly _ _ _ _ _ _ vals.length [] vals matched cd le_rfl hall h
  rcases ht with hlen | hord
  · match vals, hlen with
    | [], _ => exact hgo (by simp [Orderly])
    | [e], _ =>
      cases hd : dead o n e with
      | false => exact hgo (by simp [Orderly, hd])
      | true => exact pass_single (hall e (by simp)).1 (hall e (by simp)).2.1 hd
  · exact hgo hord

/-! ## New values -/

/-- The values that the second loop appends. -/
def fresh (m : MetaDataD P) (matched : Nat → Bool) (k : Nat) : List PartVal :=
  (List.range k).filterMap fun j =>
    if matched j then
      none else (m.digest (m.ls + j * P.ckptInterval)).join.map
        fun d => ⟨d, m.ls + j * P.ckptInterval, 1⟩

/-- The indices of its own checkpoints fit an `int`. -/
theorem own_far {j : Nat} (hj : j < P.maxDigests) :
    m.ls + j * P.ckptInterval - m.ls < 2 ^ 31 * P.ckptInterval := by
  have hlt := P.maxOut_lt
  have hle : P.maxOut / P.ckptInterval ≤ P.maxOut := Nat.div_le_self _ _
  have hpos : (0 : Int) < P.ckptInterval := by exact_mod_cast P.ckptInterval_pos
  unfold Params.maxDigests at hj
  rw [add_sub_cancel_left]
  exact mul_lt_mul_of_pos_right (by omega) hpos

theorem own_index {j : Nat} : (m.ls + j * P.ckptInterval - m.ls) / P.ckptInterval = (j : Int) := by
  have hpos : (0 : Int) < P.ckptInterval := by exact_mod_cast P.ckptInterval_pos
  rw [add_sub_cancel_left, Int.mul_ediv_cancel _ hpos.ne']

theorem fresh_nodup {matched : Nat → Bool} {k : Nat} :
    ((fresh m matched k).map fun e => (e.c, e.d)).Nodup := by
  have hpos : (0 : Int) < P.ckptInterval := by exact_mod_cast P.ckptInterval_pos
  have hlt : (fresh m matched k).Pairwise fun e e' => e.c < e'.c := by
    refine List.Pairwise.filterMap _ (fun i j hij e he e' he' => ?_) List.pairwise_lt_range
    simp only [Option.ite_none_left_eq_some, Option.map_eq_some_iff] at he he'
    obtain ⟨-, d, -, rfl⟩ := he
    obtain ⟨-, d', -, rfl⟩ := he'
    exact add_lt_add_right (mul_lt_mul_of_pos_right (by exact_mod_cast hij) hpos) _
  exact List.pairwise_map.2 (hlt.imp fun h heq => h.ne (congrArg Prod.fst heq))

theorem appendNew_eq {matched : Nat → Bool} {vals : List PartVal} :
    ∀ {k : Nat}, m.nDigests ≤ P.maxDigests → k ≤ P.maxDigests →
    (vals ++ fresh m matched k).length ≤ maxSize E P →
    (List.range k).foldlM (appendOne E m matched) vals = some (vals ++ fresh m matched k)
  | 0, _, _, _ => by simp [fresh]
  | k + 1, hnum, hk, hroom => by
    obtain ⟨o, ho, -⟩ := m.digest_eq hnum (own_far hk)
    have hstep : fresh m matched (k + 1) = fresh m matched k ++
        if matched k then [] else o.toList.map fun d => ⟨d, m.ls + k * P.ckptInterval, 1⟩ := by
      simp only [fresh, List.range_succ, List.filterMap_append,
        List.filterMap_cons, List.filterMap_nil, ho, Option.join_some]
      cases hm : matched k <;> cases o <;> simp
    rw [hstep, ← List.append_assoc, List.length_append] at hroom
    have hk' : ¬P.maxDigests ≤ k := by omega
    rw [List.range_succ, List.foldlM_append, appendNew_eq hnum (by omega) (by omega),
      hstep, ← List.append_assoc]
    simp only [Option.bind_eq_bind, Option.bind_some, List.foldlM_cons,
      List.foldlM_nil, appendOne, if_neg hk', ho]
    cases hm : matched k with
    | true => simp
    | false =>
      cases o with
      | none => simp
      | some d =>
        have : (vals ++ fresh m matched k).length < maxSize E P := by
          simp only [hm, Option.toList_some, List.map_cons, List.map_nil] at hroom
          simp at hroom ⊢
          omega
        simp only [Bool.false_eq_true, if_false, if_pos this]
        rfl

end Tally

/-! ## What the certificate is about -/

namespace MetaDataCert

variable {P : Params} (c : TreeCfg) (E : Env)

/-- The messages of `mine` are those that `send_fetch` builds. -/
def Incoming.Own (x : Incoming P) : Prop :=
  x.mine = true → x.m.id = E.id ∧ E.id < E.n ∧ 0 ≤ x.m.ls ∧
    0 ≤ x.m.nDigests ∧ x.m.nDigests ≤ P.maxDigests

/-- The certificate takes the message. -/
def accepts (om : Option (MetaDataD P)) (x : Incoming P) : Bool :=
  (x.mine || x.m.verify c E x.mac) && !stale om x.m

def arrive (last : Nat → Option (MetaDataD P)) (x : Incoming P) : Nat → Option (MetaDataD P) :=
  if accepts c E (last x.m.id) x then Function.update last x.m.id (some x.m) else last

/-- The latest message of each replica that was accepted. -/
def latest (xs : List (Incoming P)) : Nat → Option (MetaDataD P) :=
  xs.foldl (arrive c E) fun _ => none

/-- The replicas whose message in `last` carries the digest. -/
def support (last : Nat → Option (MetaDataD P)) (n : Int) (d : Digest) : Nat :=
  (List.range E.n).countP fun i => (last i).any fun m => decide (m.Carries n d)

/-- The values are the digests that the messages of `last` carry, each with the number of
replicas. -/
structure Exact (last : Nat → Option (MetaDataD P)) (t : Tally) : Prop where
  distinct : (t.vals.map fun e => (e.c, e.d)).Nodup
  count : ∀ e ∈ t.vals, e.count = support E last e.c e.d
  complete : ∀ i < E.n, ∀ m n d, last i = some m → m.Carries n d → t.ls ≤ n → ∃ e ∈ t.vals,
    e.c = n ∧ e.d = d

/-- What `verify` and `send_fetch` guarantee. -/
structure Valid (m : MetaDataD P) : Prop where
  id_lt : m.id < E.n
  ls_nonneg : 0 ≤ m.ls
  nDigests_nonneg : 0 ≤ m.nDigests
  nDigests_le : m.nDigests ≤ P.maxDigests

variable {c} {E}

theorem accepts_valid {om : Option (MetaDataD P)} {x : Incoming P} (hown : Incoming.Own E x)
    (h : accepts c E om x = true) : Valid E x.m := by
  rw [accepts, Bool.and_eq_true, Bool.or_eq_true] at h
  rcases h.1 with hmine | hv
  · obtain ⟨h1, h2, h3, h4, h5⟩ := hown hmine
    exact ⟨h1 ▸ h2, h3, h4, h5⟩
  · simp only [MetaDataD.verify, Env.isReplica, Bool.and_eq_true, decide_eq_true_eq] at hv
    obtain ⟨⟨⟨⟨⟨⟨⟨h1, -⟩, h3⟩, -⟩, -⟩, h4⟩, -⟩, -⟩ := hv
    exact ⟨h1, h3, by omega, by unfold Params.maxDigests; push_cast; omega⟩

theorem countP_update {p q : Nat → Bool} {i : Nat} {l : List Nat} (hl : l.Nodup) (hi : i ∈ l)
    (hq : ∀ j, j ≠ i → q j = p j) :
    l.countP q + (if p i then 1 else 0) = l.countP p + if q i then 1 else 0 := by
  have hperm := List.perm_cons_erase hi
  have hrest : (l.erase i).countP q = (l.erase i).countP p := by
    refine List.countP_congr fun j hj => ?_
    rw [hq j]
    rintro rfl
    exact hl.not_mem_erase hj
  rw [hperm.countP_eq, hperm.countP_eq, List.countP_cons, List.countP_cons, hrest]
  omega

/-- A message takes the vote of the one that it replaces. -/
theorem support_update {last : Nat → Option (MetaDataD P)} {m : MetaDataD P} (hi : m.id < E.n)
    (n : Int) (d : Digest) :
    support E (Function.update last m.id (some m)) n d +
      (if (last m.id).any fun m => decide (m.Carries n d) then 1 else 0) =
      support E last n d + if decide (m.Carries n d) then 1 else 0 := by
  have h := countP_update (p := fun i => (last i).any fun m => decide (m.Carries n d))
    (q := fun i => ((Function.update last m.id (some m)) i).any fun m => decide (m.Carries n d))
      List.nodup_range (List.mem_range.2 hi)
    fun j hj => by rw [Function.update_of_ne hj]
  simpa [support, Function.update_self] using h

theorem support_pos {last : Nat → Option (MetaDataD P)} {n : Int} {d : Digest} :
    0 < support E last n d ↔ ∃ i < E.n, ∃ m, last i = some m ∧ m.Carries n d := by
  simp [support, List.countP_pos_iff, Option.any_eq_true]

/-- The values with a vote are no more than the entries of all messages. -/
theorem length_le {last : Nat → Option (MetaDataD P)} {vals : List PartVal}
    (hlast : ∀ i m, last i = some m → Valid E m) (hd : (vals.map fun e => (e.c, e.d)).Nodup)
    (hpos : ∀ e ∈ vals, 0 < support E last e.c e.d) : vals.length ≤ Tally.maxSize E P := by
  have hex : ∀ e : Int × Digest, e ∈ (vals.map fun e => (e.c, e.d)) → ∃ i m,
    i < E.n ∧ last i = some m ∧ m.Carries e.1 e.2 := by
    intro e he
    obtain ⟨v, hv, rfl⟩ := List.mem_map.1 he
    obtain ⟨i, hi, m, hm⟩ := support_pos.1 (hpos v hv)
    exact ⟨i, m, hi, hm⟩
  have : Nonempty (MetaDataD P) := ⟨⟨0, 0, 0, 0, fun _ => 0, 0, 0, 0⟩⟩
  choose! i m hi hm hc using hex
  have hcard := Finset.card_le_card_of_injOn (s := (vals.map fun e => (e.c, e.d)).toFinset)
    (t := Finset.range E.n ×ˢ Finset.range P.maxDigests)
      (fun e => (i e, ((e.1 - (m e).ls) / P.ckptInterval).toNat)) ?_ ?_
  · rwa [List.toFinset_card_of_nodup hd, List.length_map,
      Finset.card_product, Finset.card_range, Finset.card_range] at hcard
  · intro e he
    have he := List.mem_toFinset.1 (Finset.mem_coe.1 he)
    have hv := (hlast _ _ (hm e he)).nDigests_le
    have hlt := (hc e he).2.2.1
    have hpos : (0 : Int) < P.ckptInterval := by exact_mod_cast P.ckptInterval_pos
    have h0 : 0 ≤ (e.1 - (m e).ls) / P.ckptInterval :=
      Int.ediv_nonneg (by have := (hc e he).2.1; omega) hpos.le
    simp only [Finset.coe_product, Finset.coe_range, Set.mem_prod, Set.mem_Iio]
    exact ⟨hi e he, by omega⟩
  · intro e he e' he' heq
    have he := List.mem_toFinset.1 (Finset.mem_coe.1 he)
    have he' := List.mem_toFinset.1 (Finset.mem_coe.1 he')
    simp only [Prod.mk.injEq] at heq
    have hsame : m e = m e' :=
      Option.some.inj ((hm e he).symm.trans ((congrArg last heq.1).trans (hm e' he')))
    have hpos : (0 : Int) < P.ckptInterval := by exact_mod_cast P.ckptInterval_pos
    have h1 := (hc e he).2.1
    have h2 := (hc e' he').2.1
    rw [hsame] at h1 heq
    have h3 : 0 ≤ (e.1 - (m e').ls) / P.ckptInterval := Int.ediv_nonneg (by omega) hpos.le
    have h4 : 0 ≤ (e'.1 - (m e').ls) / P.ckptInterval := Int.ediv_nonneg (by omega) hpos.le
    have hn : e.1 = e'.1 := MetaDataD.div_inj (hc e he).1
      (hc e' he').1 (by omega : (e.1 - (m e').ls) / P.ckptInterval = _)
    have hcar := hc e he
    rw [hsame, hn] at hcar
    exact Prod.ext hn (hcar.unique (hc e' he'))

/-! ## Steps -/

/-- `last_stables` is as the constructor left it, so no message is below `ls`. -/
structure Plain (E : Env) (t : Tally) : Prop where
  lastStables : t.lastStables = List.replicate E.n 0
  ls : t.ls = 0

theorem kMax_zeros {k n : Nat} {tmax : Int} (hk0 : 1 ≤ k) (hk : k ≤ n) (ht : 0 < tmax) :
    kMax k (List.replicate n 0) tmax = 0 := by
  have hkth : KMax.IsKth k (List.replicate n 0) (kMax k (List.replicate n 0) tmax) := by
    refine kMax_isKth hk0 (by simpa using hk) fun x hx => ?_
    rw [List.eq_of_mem_replicate hx]
    exact ⟨le_rfl, ht⟩
  obtain ⟨h1, h2⟩ := hkth
  simp only [List.countP_replicate, decide_eq_true_eq] at h1 h2
  split at h1
  · split at h2 <;> omega
  · omega

/-- The assertion that `verify` returns false for the own messages. -/
theorem not_self {x : Incoming P} (h : (x.mine || x.m.verify c E x.mac) = true) :
    (!(x.mine || x.m.id != E.id)) = false := by
  rw [Bool.or_eq_true] at h
  rcases h with hm | hv
  · simp [hm]
  · simp only [MetaDataD.verify, Bool.and_eq_true] at hv
    have hne := bne_iff_ne.1 hv.1.1.1.1.1.1.2
    simp [Ne.symm hne]

theorem settle_plain {om : Option (MetaDataD P)} {m : MetaDataD P} {t : Tally} (hf : E.f < E.n)
    (ht : Plain E t) (hls : 0 ≤ m.ls) :
    t.settle E om m = (t.recount E om m).map (·, true) := by
  have hk : kMax (E.f + 1) t.lastStables (2 ^ 63 - 1) = t.ls := by
    rw [ht.lastStables, ht.ls]
    exact kMax_zeros (by omega) (by omega) (by decide)
  have hge : ¬m.ls < t.ls := by rw [ht.ls]; omega
  unfold Tally.settle
  rw [hk, if_neg hge, ite_self]

/-- The certificate notes that it has the own message. -/
def noted (x : Incoming P) (t : Tally) : Tally := if x.mine then { t with hasMine := true } else t

theorem noted_eq (x : Incoming P) (t : Tally) : ∃ b, noted x t = { t with hasMine := b } := by
  unfold noted
  split
  · exact ⟨_, rfl⟩
  · exact ⟨_, rfl⟩

/-- A message that is taken is counted. -/
theorem add_of_accepts {s : MetaDataCert P} {x : Incoming P} (hf : E.f < E.n) (hp : Plain E s.tally)
    (hls : 0 ≤ x.m.ls) (ha : accepts c E (s.lastMdds x.m.id) x = true) :
    add c E x s = ((noted x s.tally).recount E (s.lastMdds x.m.id) x.m).map fun t =>
      (⟨t, Function.update s.lastMdds x.m.id (some x.m)⟩, true) := by
  rw [accepts, Bool.and_eq_true, Bool.not_eq_true'] at ha
  have ht : Plain E (noted x s.tally) := by
    obtain ⟨b, hb⟩ := noted_eq x s.tally
    rw [hb]
    exact ⟨hp.lastStables, hp.ls⟩
  simp only [add, ha.1, ha.2, not_self ha.1, if_true, Bool.false_eq_true, if_false]
  show ((noted x s.tally).settle E (s.lastMdds x.m.id) x.m >>= _) = _
  rw [settle_plain hf ht hls]
  cases Tally.recount E (s.lastMdds x.m.id) x.m (noted x s.tally) <;> rfl

/-- Any other message changes nothing. -/
theorem add_of_not_accepts {s : MetaDataCert P} {x : Incoming P}
    (ha : accepts c E (s.lastMdds x.m.id) x = false) :
    add c E x s = some ({ s with tally := noted x s.tally }, false) := by
  rw [accepts, Bool.and_eq_false_iff, Bool.not_eq_false'] at ha
  by_cases hv : (x.mine || x.m.verify c E x.mac) = true
  · have hst := ha.resolve_left (by simp [hv])
    simp only [add, hv, not_self hv, hst, if_true, Bool.false_eq_true, if_false]
    rfl
  · simp only [add, hv]
    rfl

/-- Everything that holds between two calls. -/
structure Inv (E : Env) (s : MetaDataCert P) : Prop where
  plain : Plain E s.tally
  valid : ∀ i m, s.lastMdds i = some m → Valid E m ∧ m.id = i
  vals : ∀ e ∈ s.tally.vals, 0 ≤ e.c ∧ e.c % P.ckptInterval = 0 ∧ 1 ≤ e.count
  exact : Exact E s.lastMdds s.tally

def oldVotes (om : Option (MetaDataD P)) (e : PartVal) : Bool :=
  om.any fun om => decide (om.Carries e.c e.d)

def newVotes (m : MetaDataD P) (e : PartVal) : Bool := decide (m.Carries e.c e.d)

/-- The message does no harm: no checkpoint of a value is so far above it, or the one that it
replaces, that its index does not fit an `int`; its `ls` is a multiple of the interval (which
`verify` does not test) or it says nothing new; and the values that are moved to the places of
others have no vote of either. -/
structure Counted (s : MetaDataCert P) (m : MetaDataD P) : Prop where
  near : ∀ e ∈ s.tally.vals, e.c - m.ls < 2 ^ 31 * P.ckptInterval ∧
    ∀ om, s.lastMdds m.id = some om → e.c - om.ls < 2 ^ 31 * P.ckptInterval
  aligned : m.ls % P.ckptInterval = 0 ∨ ∀ n d, m.Carries n d → ∃ e ∈ s.tally.vals, e.c = n ∧ e.d = d
  tidy : Tally.Tidy (oldVotes (s.lastMdds m.id)) (newVotes m) s.tally.vals

theorem votes_eq {m : MetaDataD P} {e : PartVal} (hnum : m.nDigests ≤ P.maxDigests)
    (hnear : e.c - m.ls < 2 ^ 31 * P.ckptInterval) :
    m.votes e = some (newVotes m e) := by
  obtain ⟨o, ho, hiff⟩ := m.digest_eq hnum hnear
  rw [MetaDataD.votes, ho, Option.map_some, Option.some.injEq,
    newVotes, Bool.eq_iff_iff, beq_iff_eq, decide_eq_true_eq]
  exact hiff e.d

theorem ballot {om : Option (MetaDataD P)} {m : MetaDataD P} {e : PartVal} (hm : Valid E m)
    (hom : ∀ o, om = some o → Valid E o) (hnear : e.c - m.ls < 2 ^ 31 * P.ckptInterval)
    (hold : ∀ o, om = some o → e.c - o.ls < 2 ^ 31 * P.ckptInterval) :
    Tally.Ballot om m (oldVotes om) (newVotes m) e where
  old := by
    cases om with
    | none => rfl
    | some o => exact votes_eq (hom o rfl).nDigests_le (hold o rfl)
  new := votes_eq hm.nDigests_le hnear
  room h := by
    have hc : m.Carries e.c e.d := of_decide_eq_true h
    have hpos : (0 : Int) < P.ckptInterval := by exact_mod_cast P.ckptInterval_pos
    have hle := hm.nDigests_le
    exact ⟨Int.ediv_nonneg (by have := hc.2.1; omega) hpos.le, by have := hc.2.2.1; omega⟩

/-- The new count of a value is its new support. -/
theorem adjust_count {s : MetaDataCert P} (hi : Inv E s) {m : MetaDataD P} (hm : Valid E m)
    {e : PartVal} (he : e ∈ s.tally.vals) :
    (Tally.adjust (oldVotes (s.lastMdds m.id)) (newVotes m) e).count =
      support E (Function.update s.lastMdds m.id (some m)) e.c e.d := by
  have h := @support_update _ _ s.lastMdds _ hm.id_lt e.c e.d
  have hc := hi.exact.count e he
  show e.count - (if oldVotes (s.lastMdds m.id) e then 1 else 0) +
    (if newVotes m e then 1 else 0) = _
  change _ + (if oldVotes (s.lastMdds m.id) e then 1 else 0) =
    _ + (if newVotes m e then 1 else 0) at h
  rw [hc]
  generalize oldVotes (s.lastMdds m.id) e = a at h ⊢
  generalize newVotes m e = b at h ⊢
  cases a <;> cases b <;> simp only [if_true, Bool.false_eq_true, if_false] at h ⊢ <;> omega

theorem dead_iff {s : MetaDataCert P} (hi : Inv E s) {m : MetaDataD P} (hm : Valid E m)
    {e : PartVal} (he : e ∈ s.tally.vals) :
    Tally.dead (oldVotes (s.lastMdds m.id)) (newVotes m) e = false ↔
      0 < support E (Function.update s.lastMdds m.id (some m)) e.c e.d := by
  rw [Tally.dead, beq_eq_false_iff_ne, adjust_count hi hm he,
    Nat.pos_iff_ne_zero, ne_eq, Int.natCast_eq_zero]

theorem mem_fresh {m : MetaDataD P} {matched : Nat → Bool} {k : Nat} {e : PartVal}
    (hnum : m.nDigests ≤ P.maxDigests) (hk : k ≤ P.maxDigests) :
    e ∈ Tally.fresh m matched k ↔
      ∃ j < k, matched j = false ∧ e = ⟨e.d, m.ls + j * P.ckptInterval, 1⟩ ∧
        m.Carries (m.ls + j * P.ckptInterval) e.d := by
  simp only [Tally.fresh, List.mem_filterMap, List.mem_range,
    Option.ite_none_left_eq_some, Bool.not_eq_true, Option.map_eq_some_iff]
  refine exists_congr fun j => and_congr_right fun hj => and_congr_right fun _ => ?_
  obtain ⟨o, ho, hiff⟩ := m.digest_eq hnum (Tally.own_far (by omega : j < P.maxDigests))
  rw [ho, Option.join_some]
  constructor
  · rintro ⟨d, rfl, rfl⟩
    exact ⟨rfl, (hiff d).1 rfl⟩
  · rintro ⟨he, hc⟩
    exact ⟨e.d, (hiff e.d).2 hc, he.symm⟩

section Step

variable {s : MetaDataCert P} {m : MetaDataD P} {p : Tally.Pass}

/-- The values that the pass keeps are those that still have a vote. -/
theorem mem_swept (hi : Inv E s) (hm : Valid E m)
    (hp : Tally.Swept E m (oldVotes (s.lastMdds m.id)) (newVotes m)
      [] s.tally.vals (fun _ => false) (s.tally.c, s.tally.d) p) {n : Int} {d : Digest} :
    (∃ e ∈ p.vals, e.c = n ∧ e.d = d) ↔
      (∃ e ∈ s.tally.vals, e.c = n ∧ e.d = d) ∧
        0 < support E (Function.update s.lastMdds m.id (some m)) n d := by
  simp only [hp.vals.mem_iff, List.nil_append, List.mem_map, List.mem_filter, Bool.not_eq_true']
  constructor
  · rintro ⟨_, ⟨e, ⟨he, hd⟩, rfl⟩, rfl, rfl⟩
    exact ⟨⟨e, he, rfl, rfl⟩, (dead_iff hi hm he).1 hd⟩
  · rintro ⟨⟨e, he, rfl, rfl⟩, hpos⟩
    exact ⟨_, ⟨e, ⟨he, (dead_iff hi hm he).2 hpos⟩, rfl⟩, rfl, rfl⟩

/-- A digest of the message is matched where there is a value for it. -/
theorem matched_iff (hp : Tally.Swept E m (oldVotes (s.lastMdds m.id))
      (newVotes m) [] s.tally.vals (fun _ => false) (s.tally.c, s.tally.d) p)
    {j : Nat} {d : Digest} (hc : m.Carries (m.ls + j * P.ckptInterval) d) :
    p.matched j = true ↔ ∃ e ∈ s.tally.vals, e.c = m.ls + j * P.ckptInterval ∧ e.d = d := by
  rw [hp.matched]
  simp only [Bool.false_eq_true, false_or, newVotes, decide_eq_true_eq]
  have hpos : (0 : Int) < P.ckptInterval := by exact_mod_cast P.ckptInterval_pos
  constructor
  · rintro ⟨e, he, hce, hj⟩
    have h0 : 0 ≤ (e.c - m.ls) / P.ckptInterval :=
      Int.ediv_nonneg (by have := hce.2.1; omega) hpos.le
    have heq : e.c = m.ls + j * P.ckptInterval :=
      MetaDataD.div_inj hce.1 hc.1 (by rw [Tally.own_index]; omega)
    exact ⟨e, he, heq, (heq ▸ hce).unique hc⟩
  · rintro ⟨e, he, heq, rfl⟩
    exact ⟨e, he, heq ▸ hc, by rw [heq, Tally.own_index, Int.toNat_natCast]⟩

/-- No message carried the digest of a value that is appended, so the new one is the first. -/
theorem fresh_support (hi : Inv E s) (hm : Valid E m)
    (hp : Tally.Swept E m (oldVotes (s.lastMdds m.id)) (newVotes m)
      [] s.tally.vals (fun _ => false) (s.tally.c, s.tally.d) p) {e : PartVal}
    (he : e ∈ Tally.fresh m p.matched m.nDigests.toNat) :
    (∀ v ∈ s.tally.vals, ¬(v.c = e.c ∧ v.d = e.d)) ∧ m.Carries e.c e.d ∧ e.count = 1 ∧
      support E (Function.update s.lastMdds m.id (some m)) e.c e.d = 1 := by
  obtain ⟨j, -, hj, he, hc⟩ := (mem_fresh hm.nDigests_le (by have := hm.nDigests_le; omega)).1 he
  have hn : e.c = m.ls + j * P.ckptInterval := by rw [he]
  have hnone : ∀ v ∈ s.tally.vals, ¬(v.c = e.c ∧ v.d = e.d) := by
    intro v hv h
    have := (matched_iff hp hc).2 ⟨v, hv, h.1.trans hn, h.2⟩
    rw [hj] at this
    cases this
  rw [← hn] at hc
  refine ⟨hnone, hc, by rw [he], ?_⟩
  have h0 : support E s.lastMdds e.c e.d = 0 := by
    by_contra h0
    obtain ⟨i, hi', o, ho, hco⟩ := support_pos.1 (Nat.pos_of_ne_zero h0)
    have hls : s.tally.ls ≤ e.c := by
      rw [hi.plain.ls]
      have := hm.ls_nonneg
      have := hc.2.1
      omega
    obtain ⟨v, hv, h⟩ := hi.exact.complete i hi' o _ _ ho hco hls
    exact hnone v hv h
  have hold : ((s.lastMdds m.id).any fun m => decide (m.Carries e.c e.d)) = false := by
    by_contra hold
    obtain ⟨o, ho, hco⟩ := (Option.any_eq_true _ _).1 (by simpa using hold)
    have := support_pos.2 ⟨m.id, hm.id_lt, o, ho, of_decide_eq_true hco⟩
    omega
  have h := @support_update _ _ s.lastMdds _ hm.id_lt e.c e.d
  rw [hold, h0, decide_eq_true hc] at h
  simpa using h

/-- A message that does no harm is counted. -/
theorem recount_exact (hi : Inv E s) (hm : Valid E m) (hc : Counted s m) {t : Tally}
    (ht : ∃ b, t = { s.tally with hasMine := b }) :
    ∃ t', t.recount E (s.lastMdds m.id) m = some t' ∧
      Inv E ⟨t', Function.update s.lastMdds m.id (some m)⟩ ∧
      ((t'.c, t'.d) = (s.tally.c, s.tally.d) ∨
          E.f + 1 ≤ support E (Function.update s.lastMdds m.id (some m)) t'.c t'.d) := by
  obtain ⟨b, rfl⟩ := ht
  have hall : ∀ e ∈ s.tally.vals, Tally.Ballot (s.lastMdds m.id)
    m (oldVotes (s.lastMdds m.id)) (newVotes m) e ∧ 0 ≤ e.c ∧ 1 ≤ e.count :=
    fun e he => ⟨ballot hm (fun o ho => (hi.valid _ o ho).1) (hc.near e he).1 (hc.near e he).2,
      (hi.vals e he).1, (hi.vals e he).2.2⟩
  obtain ⟨p, hpass, hp⟩ :=
    @Tally.pass_tidy _ E _ _ _ _ _ (fun _ => false) (s.tally.c, s.tally.d) hall hc.tidy
  have hvalid : ∀ i o, Function.update s.lastMdds m.id (some m) i = some o →
    Valid E o ∧ o.id = i := by
    intro i o ho
    by_cases h : i = m.id
    · rw [h, Function.update_self, Option.some.injEq] at ho
      exact ⟨ho ▸ hm, by rw [h, ho]⟩
    · rw [Function.update_of_ne h] at ho
      exact hi.valid i o ho
  have hmem := @mem_swept _ _ _ _ _ hi hm hp
  -- the keys of the values after the call
  have hdist :
    ((p.vals ++ Tally.fresh m p.matched m.nDigests.toNat).map fun e => (e.c, e.d)).Nodup := by
    rw [List.map_append, List.nodup_append]
    refine ⟨?_, ?_, ?_⟩
    · have hperm := hp.vals.map fun e : PartVal => (e.c, e.d)
      rw [List.nil_append, List.map_map] at hperm
      exact hperm.nodup_iff.2 (hi.exact.distinct.sublist (List.filter_sublist.map _))
    · exact Tally.fresh_nodup
    · intro k hk k' hk' heq
      obtain ⟨e, he, rfl⟩ := List.mem_map.1 hk
      obtain ⟨e', he', rfl⟩ := List.mem_map.1 hk'
      obtain ⟨⟨v, hv, hvk⟩, -⟩ := hmem.1 ⟨e, he, rfl, rfl⟩
      simp only [Prod.mk.injEq] at heq
      exact (fresh_support hi hm hp he').1 v hv ⟨hvk.1.trans heq.1, hvk.2.trans heq.2⟩
  have hcount : ∀ e ∈ p.vals ++ Tally.fresh m p.matched m.nDigests.toNat,
    0 ≤ e.c ∧ e.c % P.ckptInterval = 0 ∧
      e.count = support E (Function.update s.lastMdds m.id (some m)) e.c e.d ∧
      0 < support E (Function.update s.lastMdds m.id (some m)) e.c e.d := by
    intro e he
    rcases List.mem_append.1 he with he | he
    · have he' := hp.vals.mem_iff.1 he
      rw [List.nil_append] at he'
      obtain ⟨v, hv, rfl⟩ := List.mem_map.1 he'
      obtain ⟨hv, hd⟩ := List.mem_filter.1 hv
      exact ⟨(hi.vals v hv).1, (hi.vals v hv).2.1, adjust_count hi hm hv,
        (dead_iff hi hm hv).1 (by simpa using hd)⟩
    · obtain ⟨-, hcar, h1, hsup⟩ := fresh_support hi hm hp he
      have := hm.ls_nonneg
      have := hcar.2.1
      exact ⟨by omega, hcar.1, by rw [h1, hsup]; rfl, by omega⟩
  have hroom := length_le (fun i o ho => (hvalid i o ho).1) hdist fun e he => (hcount e he).2.2.2
  have hnum := hm.nDigests_le
  have happ : Tally.appendNew E m p.matched p.vals =
    some (p.vals ++ Tally.fresh m p.matched m.nDigests.toNat) :=
    Tally.appendNew_eq hnum (by omega) hroom
  refine ⟨{ s.tally with hasMine := b, vals := p.vals ++ Tally.fresh m p.matched m.nDigests.toNat,
                         c := p.c, d := p.d }, ?_,
    ⟨⟨hi.plain.lastStables, hi.plain.ls⟩, hvalid, fun e he => ?_,
      hdist, fun e he => (hcount e he).2.2.1, ?_⟩, ?_⟩
  · simp only [Tally.recount, hi.plain.ls]
    show Tally.pass E (s.lastMdds m.id) m 0 s.tally.vals.length 0 ⟨s.tally.vals,
      fun _ => false, s.tally.c, s.tally.d⟩ >>= _ = _
    rw [show Tally.pass E _ m 0 s.tally.vals.length 0 ⟨s.tally.vals,
      fun _ => false, s.tally.c, s.tally.d⟩ = some p from hpass]
    simp only [Option.bind_eq_bind, Option.bind_some, happ]
  · obtain ⟨h1, h2, h3, h4⟩ := hcount e he
    exact ⟨h1, h2, by omega⟩
  · intro i hi' o n d ho hc' _
    change Function.update s.lastMdds m.id (some m) i = some o at ho
    have hsup : 0 < support E (Function.update s.lastMdds m.id (some m)) n d :=
      support_pos.2 ⟨i, hi', o, ho, hc'⟩
    have hkept : (∃ e ∈ s.tally.vals, e.c = n ∧ e.d = d) →
      ∃ e ∈ p.vals ++ Tally.fresh m p.matched m.nDigests.toNat, e.c = n ∧ e.d = d := by
      intro h
      obtain ⟨e, he, hk⟩ := hmem.2 ⟨h, hsup⟩
      exact ⟨e, List.mem_append_left _ he, hk⟩
    by_cases hold : ∃ e ∈ s.tally.vals, e.c = n ∧ e.d = d
    · exact hkept hold
    by_cases him : i = m.id
    · -- a digest that no value has yet is appended
      subst him
      rw [Function.update_self, Option.some.injEq] at ho
      subst ho
      have hal := hc.aligned.resolve_right fun h => hold (h n d hc')
      have hpos : (0 : Int) < P.ckptInterval := by exact_mod_cast P.ckptInterval_pos
      have h0 : 0 ≤ (n - m.ls) / P.ckptInterval :=
        Int.ediv_nonneg (by have := hc'.2.1; omega) hpos.le
      have hn : m.ls + (((n - m.ls) / P.ckptInterval).toNat : Int) * P.ckptInterval = n := by
        rw [Int.toNat_of_nonneg h0, Int.ediv_mul_cancel
          (Int.dvd_sub (Int.dvd_of_emod_eq_zero hc'.1) (Int.dvd_of_emod_eq_zero hal))]
        omega
      have hun : p.matched ((n - m.ls) / P.ckptInterval).toNat = false := by
        rw [← Bool.not_eq_true, matched_iff hp (d := d) (by rw [hn]; exact hc'), hn]
        exact hold
      refine ⟨⟨d, n, 1⟩, List.mem_append_right _
        ((mem_fresh hnum (by omega)).2 ⟨_, ?_, hun, by rw [hn], by rw [hn]; exact hc'⟩), rfl, rfl⟩
      have := hc'.2.2.1
      omega
    · rw [Function.update_of_ne him] at ho
      refine absurd (hi.exact.complete i hi' o n d ho hc' ?_) hold
      rw [hi.plain.ls]
      have := (hi.valid i o ho).1.ls_nonneg
      have := hc'.2.1
      omega
  · rcases hp.chosen with h | ⟨e, he, hd, hcnt, heq⟩
    · exact .inl h
    · rw [adjust_count hi hm he] at hcnt
      obtain ⟨hpc, hpd⟩ := Prod.mk.inj heq
      refine .inr ?_
      show _ ≤ support E _ p.c p.d
      rw [hpc, hpd]
      omega

end Step

/-! ## Runs -/

section Runs

variable (c : TreeCfg) (E : Env)

def step (s : MetaDataCert P) (x : Incoming P) : Option (MetaDataCert P) :=
  (add c E x s).map Prod.fst

/-- A message that the certificate takes does no harm. -/
def Harmless (s : MetaDataCert P) (x : Incoming P) : Prop :=
  accepts c E (s.lastMdds x.m.id) x = true → Counted s x.m

variable {c} {E}

/-- The certificate after the constructor or `clear`. -/
structure Cleared (E : Env) (s : MetaDataCert P) : Prop where
  plain : Plain E s.tally
  vals : s.tally.vals = []
  c : s.tally.c = -1
  lastMdds : s.lastMdds = fun _ => none

theorem new_cleared : Cleared E (new E P) := ⟨⟨rfl, rfl⟩, rfl, rfl, rfl⟩

theorem Cleared.inv {s : MetaDataCert P} (h : Cleared E s) : Inv E s where
  plain := h.plain
  valid i m hm := by rw [h.lastMdds] at hm; cases hm
  vals e he := by rw [h.vals] at he; cases he
  exact := by
    refine ⟨by simp [h.vals], fun e he => ?_, fun i _ m n d hm => ?_⟩
    · rw [h.vals] at he
      cases he
    · rw [h.lastMdds] at hm
      cases hm

theorem arrive_of_not {last : Nat → Option (MetaDataD P)} {x : Incoming P}
    (h : accepts c E (last x.m.id) x = false) : arrive c E last x = last := by
  simp [arrive, h]

theorem Inv.noted {s : MetaDataCert P} (hi : Inv E s) (x : Incoming P) :
    Inv E { s with tally := MetaDataCert.noted x s.tally } := by
  obtain ⟨b, hb⟩ := noted_eq x s.tally
  rw [hb]
  exact ⟨⟨hi.plain.lastStables, hi.plain.ls⟩, hi.valid,
    hi.vals, hi.exact.distinct, hi.exact.count, hi.exact.complete⟩

/-- One call: the messages are those that were accepted, and a value that is chosen has its `f + 1`
messages. -/
theorem step_exact {s : MetaDataCert P} {x : Incoming P} (hf : E.f < E.n) (hi : Inv E s)
    (hown : Incoming.Own E x) (hx : Harmless c E s x) :
    ∃ t, step c E s x = some t ∧ Inv E t ∧ t.lastMdds = arrive c E s.lastMdds x ∧
      ((t.tally.c, t.tally.d) = (s.tally.c, s.tally.d) ∨
          E.f + 1 ≤ support E t.lastMdds t.tally.c t.tally.d) := by
  cases ha : accepts c E (s.lastMdds x.m.id) x with
  | true =>
    have hm := accepts_valid hown ha
    obtain ⟨t, ht, hinv, hch⟩ := recount_exact hi hm (hx ha) (noted_eq x s.tally)
    refine ⟨_, ?_, hinv, ?_, hch⟩
    · rw [step, add_of_accepts hf hi.plain hm.ls_nonneg ha, ht]
      rfl
    · simp [arrive, ha]
  | false =>
    refine ⟨_, by rw [step, add_of_not_accepts ha]; rfl,
      hi.noted x, (arrive_of_not ha).symm, .inl ?_⟩
    obtain ⟨b, hb⟩ := noted_eq x s.tally
    show ((noted x s.tally).c, (noted x s.tally).d) = _
    rw [hb]

/-- **The votes of a certificate are counted exactly**, in every run whose messages do no harm: the
values are distinct, each counts the replicas whose latest accepted message carries it, none is
missing, and a reported value was carried by `f + 1` of them when it was chosen. -/
theorem votes_counted (hf : E.f < E.n) {s₀ : MetaDataCert P} (h₀ : Cleared E s₀)
    {xs : List (Incoming P)} (hown : ∀ x ∈ xs, Incoming.Own E x)
    (hx : Run.Meets (step c E) (Harmless c E) s₀ xs) :
    ∃ s, Run.run (step c E) s₀ xs = some s ∧ s.lastMdds = latest c E xs ∧
      Exact E (latest c E xs) s.tally ∧
      ∀ n d, s.tally.cvalue = some (n, d) → ∃ pre,
        pre <+: xs ∧ E.f + 1 ≤ support E (latest c E pre) n d := by
  suffices h : ∃ s, Run.run (step c E) s₀ xs = some s ∧ Inv E s ∧ s.lastMdds = latest c E xs ∧
      (0 ≤ s.tally.c → ∃ pre, pre <+: xs ∧
        E.f + 1 ≤ support E (latest c E pre) s.tally.c s.tally.d) by
    obtain ⟨s, hr, hi, hl, hch⟩ := h
    refine ⟨s, hr, hl, hl ▸ hi.exact, fun n d hv => ?_⟩
    simp only [Tally.cvalue, Option.ite_none_left_eq_some, Option.some.injEq, Prod.mk.injEq] at hv
    obtain ⟨hc, rfl, rfl⟩ := hv
    exact hch (by omega)
  induction xs using List.reverseRecOn with
  | nil => exact ⟨_, rfl, h₀.inv, h₀.lastMdds, fun h => absurd h (by rw [h₀.c]; decide)⟩
  | append_singleton xs x ih =>
    obtain ⟨s, hr, hi, hl, hch⟩ := ih (fun y hy => hown y (by simp [hy])) (Run.meets_prefix hx)
    obtain ⟨t, ht, hit, hlt, hcht⟩ :=
      step_exact hf hi (hown x (by simp)) (Run.meets_append hx hr).2.1
    have hlast : latest c E (xs ++ [x]) = t.lastMdds := by
      rw [hlt, hl]
      simp [latest]
    refine ⟨t, Run.run_append.2 ⟨s, hr, by simp [Run.run, ht]⟩, hit, hlast.symm, fun hc => ?_⟩
    rcases hcht with heq | hsup
    · obtain ⟨h1, h2⟩ := Prod.mk.inj heq
      obtain ⟨pre, hpre, hsup⟩ := hch (by omega)
      exact ⟨pre, hpre.trans (List.prefix_append _ _), by rw [h1, h2]; exact hsup⟩
    · exact ⟨_, List.prefix_refl _, hlast ▸ hsup⟩

end Runs

/-- A message of replica `id` with the given digests. -/
def fromReplica (id : Nat) (ls : Int) (ds : List Digest) : Incoming Replica.fourReplicas.P :=
  ⟨⟨5, ls, 0, 0, fun j => ds.getD j.1 0, ds.length, id, MetaDataD.fullSize Replica.fourReplicas.P⟩,
    false, true⟩

theorem fromReplica_own (E : Env) (id : Nat) (ls : Int) (ds : List Digest) :
    Incoming.Own E (fromReplica id ls ds) := nofun

/-- Replica 1 replaces a message with two digests. The value of the second one is moved to the place
of the first one, and is still counted. -/
theorem moved_value_counted : ∃ s,
    Run.run (step CowState.twoBlocks ⟨4, 1, 0, false⟩) (new ⟨4, 1, 0, false⟩ Replica.fourReplicas.P)
      [fromReplica 1 0 [7, 8], fromReplica 1 4 [9]] =
        some s ∧
      (⟨8, 2, 1⟩ ∈ s.tally.vals) ∧
      support ⟨4, 1, 0, false⟩ (latest CowState.twoBlocks ⟨4,
            1, 0, false⟩ [fromReplica 1 0 [7, 8], fromReplica 1 4 [9]]) 2 8 = 0 := by
  obtain ⟨s, hs, h⟩ :=
    (Option.any_eq_true _ _).1 (show (Run.run (step CowState.twoBlocks ⟨4, 1, 0, false⟩)
    (new ⟨4, 1, 0, false⟩ Replica.fourReplicas.P) [fromReplica 1 0 [7, 8],
      fromReplica 1 4 [9]]).any (fun s =>
      decide (⟨8, 2, 1⟩ ∈ s.tally.vals)) = true by decide +kernel)
  exact ⟨s, hs, of_decide_eq_true h, by decide +kernel⟩

/-- Two replicas with the same digest. -/
theorem votes_counted_seven : ∃ s,
    Run.run (step CowState.twoBlocks ⟨4, 1, 0, false⟩) (new ⟨4, 1, 0, false⟩ Replica.fourReplicas.P)
      [fromReplica 1 0 [7], fromReplica 2 0 [7]] =
        some s ∧
      Exact ⟨4, 1, 0, false⟩ (latest CowState.twoBlocks ⟨4,
            1, 0, false⟩ [fromReplica 1 0 [7], fromReplica 2 0 [7]]) s.tally ∧
      s.tally.cvalue = some (0, 7) := by
  have hm : Run.Meets (step CowState.twoBlocks ⟨4, 1, 0, false⟩)
    (Harmless CowState.twoBlocks ⟨4, 1, 0, false⟩)
      (new ⟨4, 1, 0, false⟩ Replica.fourReplicas.P) [fromReplica 1 0 [7], fromReplica 2 0 [7]] := by
    refine ⟨fun _ => ⟨nofun, .inl (by decide), .inl (by decide)⟩,
      fun s hs => ⟨fun _ => ?_, fun _ _ => trivial⟩⟩
    have hvals : s.tally.vals = [⟨7, 0, 1⟩] ∧ (s.lastMdds 2).isNone = true := by
      have h : (step CowState.twoBlocks ⟨4, 1, 0,
        false⟩ (new ⟨4, 1, 0, false⟩ Replica.fourReplicas.P) (fromReplica 1 0 [7])).any
          (fun s => decide (s.tally.vals = [⟨7, 0, 1⟩] ∧ (s.lastMdds 2).isNone = true)) = true := by
            decide +kernel
      rw [hs, Option.any_some] at h
      exact of_decide_eq_true h
    refine ⟨fun e he => ?_, .inl (by decide), .inl (by rw [hvals.1]; decide)⟩
    rw [hvals.1, List.mem_singleton] at he
    subst he
    refine ⟨by decide, fun om hom => ?_⟩
    rw [show (fromReplica 2 0 [7]).m.id = 2 from rfl, Option.isNone_iff_eq_none.1 hvals.2] at hom
    cases hom
  obtain ⟨s, hs, -, hex, -⟩ := votes_counted (by decide) new_cleared (by simp [fromReplica_own]) hm
  refine ⟨s, hs, hex, ?_⟩
  have h : (Run.run (step CowState.twoBlocks ⟨4, 1, 0, false⟩)
    (new ⟨4, 1, 0, false⟩ Replica.fourReplicas.P)
      [fromReplica 1 0 [7], fromReplica 2 0 [7]]).any (fun s => s.tally.cvalue == some (0, 7)) =
        true := by decide +kernel
  rw [hs, Option.any_some] at h
  exact beq_iff_eq.1 h

/-! ## `last_stable` -/

section LastStable

/-- The replicas whose message in `last` has a last stable checkpoint of `n` or more. -/
def senders (E : Env) (last : Nat → Option (MetaDataD P)) (n : Int) : Nat :=
  (List.range E.n).countP fun i => (last i).any fun m => decide (n ≤ m.ls)

/-- `r` is the largest number that `f + 1` replicas have reached, and 0 if fewer have sent a
message. -/
def IsLastStable (E : Env) (last : Nat → Option (MetaDataD P)) (r : Int) : Prop :=
  if E.f + 1 ≤ (List.range E.n).countP fun i => (last i).isSome then
    E.f + 1 ≤ senders E last r ∧ ∀ n, r < n → senders E last n < E.f + 1
  else r = 0

variable {c : TreeCfg} {E : Env} {om : Option (MetaDataD P)} {m : MetaDataD P}

theorem drop_subset {ls : Int} {i : Nat} : ∀ {fuel : Nat} {vals vals' : List PartVal},
    Tally.drop ls i fuel vals = some vals' → ∀ e ∈ vals', e ∈ vals
  | fuel + 1, vals, vals', h, e, he => by
    have hset : ∀ {last : PartVal}, vals.getLast? = some last →
      ∀ e ∈ (vals.set i last).dropLast, e ∈ vals := by
      intro last hl e he
      rcases List.mem_or_eq_of_mem_set (List.dropLast_subset _ he) with he | rfl
      · exact he
      · exact List.mem_of_getLast? hl
    rw [Tally.drop] at h
    split at h
    · obtain ⟨last, hl, h⟩ := Option.bind_eq_some_iff.1 h
      split at h
      · cases h
      · dsimp only at h
        split at h
        · exact hset hl e (drop_subset h e he)
        · cases h
          exact hset hl e he
    · dsimp only at h
      split at h
      · exact List.dropLast_subset _ (drop_subset h e he)
      · cases h
        exact List.dropLast_subset _ he

/-- The pass adds no digest. -/
theorem visit_subset {ls : Int} {i : Nat} {s s' : Tally.Pass}
    (h : Tally.visit E om m ls i s = some s') :
    ∀ e ∈ s'.vals, ∃ e' ∈ s.vals, e.c = e'.c ∧ e.d = e'.d := by
  obtain ⟨val, hval, h⟩ := Option.bind_eq_some_iff.1 h
  obtain ⟨old, -, h⟩ := Option.bind_eq_some_iff.1 h
  obtain ⟨new, -, h⟩ := Option.bind_eq_some_iff.1 h
  obtain ⟨matched, -, h⟩ := Option.bind_eq_some_iff.1 h
  have hset : ∀ e ∈ s.vals.set i (Tally.recounted old new val),
    ∃ e' ∈ s.vals, e.c = e'.c ∧ e.d = e'.d := by
    intro e he
    rcases List.mem_or_eq_of_mem_set he with he | rfl
    · exact ⟨e, he, rfl, rfl⟩
    · exact ⟨val, List.mem_of_getElem? hval, rfl, rfl⟩
  dsimp only at h
  split at h
  · obtain ⟨vals, hd, h⟩ := Option.bind_eq_some_iff.1 h
    cases h
    exact fun e he => hset e (drop_subset hd e he)
  · split at h <;> cases h <;> exact hset

theorem pass_subset {ls : Int} : ∀ {fuel i : Nat} {s s' : Tally.Pass},
    Tally.pass E om m ls fuel i s = some s' → ∀ e ∈ s'.vals, ∃ e' ∈ s.vals, e.c = e'.c
  | 0, _, _, _, h, e, he => by
    cases h
    exact ⟨e, he, rfl⟩
  | fuel + 1, i, s, s', h, e, he => by
    rw [Tally.pass] at h
    split at h
    · obtain ⟨t, ht, h⟩ := Option.bind_eq_some_iff.1 h
      obtain ⟨e', he', h1⟩ := pass_subset h e he
      obtain ⟨e'', he'', h2, -⟩ := visit_subset ht e' he'
      exact ⟨e'', he'', h1.trans h2⟩
    · cases h
      exact ⟨e, he, rfl⟩

theorem appendNew_ge {matched : Nat → Bool} {vals vals' : List PartVal} (hls : 0 ≤ m.ls)
    (h : Tally.appendNew E m matched vals = some vals') (hv : ∀ e ∈ vals, 0 ≤ e.c) :
    ∀ e ∈ vals', 0 ≤ e.c := by
  unfold Tally.appendNew at h
  generalize List.range m.nDigests.toNat = js at h
  induction js generalizing vals with
  | nil =>
    cases h
    exact hv
  | cons j js ih =>
    obtain ⟨v, h1, h⟩ := Option.bind_eq_some_iff.1 h
    refine ih (fun e he => ?_) h
    unfold Tally.appendOne at h1
    dsimp only at h1
    split at h1
    · cases h1
    split at h1
    · cases h1
      exact hv e he
    obtain ⟨o, -, h1⟩ := Option.bind_eq_some_iff.1 h1
    cases o with
    | none =>
      cases h1
      exact hv e he
    | some d =>
      simp only [Option.ite_none_right_eq_some, Option.some.injEq] at h1
      obtain ⟨-, rfl⟩ := h1
      rcases List.mem_append.1 he with he | he
      · exact hv e he
      · rw [List.mem_singleton.1 he]
        positivity

theorem recount_ge {t t' : Tally} (hls : 0 ≤ m.ls) (h : t.recount E om m = some t')
    (hv : ∀ e ∈ t.vals, 0 ≤ e.c) :
    t'.lastStables = t.lastStables ∧ t'.ls = t.ls ∧ ∀ e ∈ t'.vals, 0 ≤ e.c := by
  obtain ⟨p, hp, h⟩ := Option.bind_eq_some_iff.1 h
  obtain ⟨vals, hvals, h⟩ := Option.bind_eq_some_iff.1 h
  cases h
  refine ⟨rfl, rfl, appendNew_ge hls hvals fun e he => ?_⟩
  obtain ⟨e', he', heq⟩ := pass_subset hp e he
  rw [heq]
  exact hv e' he'

/-- What holds in every run, whatever the votes. -/
structure Base (E : Env) (s : MetaDataCert P) : Prop where
  plain : Plain E s.tally
  ls_nonneg : ∀ i m, s.lastMdds i = some m → 0 ≤ m.ls
  vals : ∀ e ∈ s.tally.vals, 0 ≤ e.c

theorem step_base {s t : MetaDataCert P} {x : Incoming P} (hf : E.f < E.n) (hb : Base E s)
    (hown : Incoming.Own E x) (h : step c E s x = some t) :
    Base E t ∧ t.lastMdds = arrive c E s.lastMdds x := by
  obtain ⟨b, hn⟩ := noted_eq x s.tally
  cases ha : accepts c E (s.lastMdds x.m.id) x with
  | true =>
    have hls := (accepts_valid hown ha).ls_nonneg
    rw [step, add_of_accepts hf hb.plain hls ha, Option.map_map] at h
    obtain ⟨t', ht', rfl⟩ := Option.map_eq_some_iff.1 h
    rw [hn] at ht'
    obtain ⟨h1, h2, h3⟩ := recount_ge hls ht' hb.vals
    refine ⟨⟨⟨h1.trans hb.plain.lastStables, h2.trans hb.plain.ls⟩,
      fun i m hm => ?_, h3⟩, by simp [arrive, ha]⟩
    change Function.update s.lastMdds x.m.id (some x.m) i = some m at hm
    by_cases hi : i = x.m.id
    · rw [hi, Function.update_self, Option.some.injEq] at hm
      exact hm ▸ hls
    · rw [Function.update_of_ne hi] at hm
      exact hb.ls_nonneg i m hm
  | false =>
    rw [step, add_of_not_accepts ha, hn] at h
    cases h
    exact ⟨⟨⟨hb.plain.lastStables, hb.plain.ls⟩, hb.ls_nonneg, hb.vals⟩, (arrive_of_not ha).symm⟩

theorem run_base (hf : E.f < E.n) {s₀ : MetaDataCert P} (h₀ : Cleared E s₀) {xs : List (Incoming P)}
    (hown : ∀ x ∈ xs, Incoming.Own E x) {s : MetaDataCert P}
    (hr : Run.run (step c E) s₀ xs = some s) : Base E s ∧ s.lastMdds = latest c E xs := by
  induction xs using List.reverseRecOn generalizing s with
  | nil =>
    cases hr
    exact ⟨⟨h₀.plain, fun i m hm => (h₀.inv.valid i m hm).1.ls_nonneg,
      fun e he => (h₀.inv.vals e he).1⟩, h₀.lastMdds⟩
  | append_singleton xs x ih =>
    obtain ⟨u, hu, hr⟩ := Run.run_append.1 hr
    obtain ⟨t, ht, hr⟩ := Run.run_cons.1 hr
    cases hr
    obtain ⟨hb, hl⟩ := ih (fun y hy => hown y (by simp [hy])) hu
    obtain ⟨hb', hl'⟩ := step_base hf hb (hown x (by simp)) ht
    exact ⟨hb', by rw [hl', hl]; simp [latest]⟩

theorem senders_mono {last : Nat → Option (MetaDataD P)} {a b : Int} (h : a ≤ b) :
    senders E last b ≤ senders E last a := by
  refine List.countP_mono_left fun i _ hi => ?_
  obtain ⟨m, hm, hle⟩ := (Option.any_eq_true _ _).1 hi
  exact (Option.any_eq_true _ _).2 ⟨m, hm, by simpa using h.trans (by simpa using hle)⟩

/-- **`last_stable` of a certificate** is right exactly if it is 0: the certificate never learns of
a later stable checkpoint. -/
theorem lastStable_iff (hf : E.f < E.n) {s₀ : MetaDataCert P} (h₀ : Cleared E s₀)
    {xs : List (Incoming P)} (hown : ∀ x ∈ xs, Incoming.Own E x) {s : MetaDataCert P}
    (hr : Run.run (step c E) s₀ xs = some s) :
    (IsLastStable E (latest c E xs) s.tally.ls ∧ ∀ e ∈ s.tally.vals, s.tally.ls ≤ e.c) ↔
      senders E (latest c E xs) 1 < E.f + 1 := by
  obtain ⟨hb, hl⟩ := run_base hf h₀ hown hr
  rw [hb.plain.ls, ← hl]
  have hvals : ∀ e ∈ s.tally.vals, 0 ≤ e.c := hb.vals
  have hall : senders E s.lastMdds 0 = (List.range E.n).countP fun i => (s.lastMdds i).isSome := by
    refine List.countP_congr fun i _ => ?_
    cases hi : s.lastMdds i with
    | none => simp
    | some m => simpa using hb.ls_nonneg i m hi
  unfold IsLastStable
  rw [← hall]
  constructor
  · rintro ⟨h, -⟩
    split at h
    · exact h.2 1 (by decide)
    · have := @senders_mono _ E s.lastMdds _ _ (show (0 : Int) ≤ 1 by decide)
      omega
  · intro h
    refine ⟨?_, hvals⟩
    split
    · rename_i hge
      exact ⟨hge, fun n hn => (senders_mono (by omega)).trans_lt h⟩
    · rfl

end LastStable

/-- Two replicas have checkpoint 2 stable, so a correct one has. -/
theorem lastStable_missed : ∃ s,
    Run.run (step CowState.twoBlocks ⟨4, 1, 0, false⟩) (new ⟨4, 1, 0, false⟩ Replica.fourReplicas.P)
      [fromReplica 1 2 [7], fromReplica 2 2 [7]] =
        some s ∧
      s.tally.ls = 0 ∧ senders ⟨4, 1, 0, false⟩ (latest CowState.twoBlocks ⟨4,
            1, 0, false⟩ [fromReplica 1 2 [7], fromReplica 2 2 [7]]) 2 = 2 := by
  obtain ⟨s, hs, h⟩ :=
    (Option.any_eq_true _ _).1 (show (Run.run (step CowState.twoBlocks ⟨4, 1, 0, false⟩)
    (new ⟨4, 1, 0, false⟩ Replica.fourReplicas.P) [fromReplica 1 2 [7], fromReplica 2 2 [7]]).any
      (fun s => s.tally.ls == 0) = true by decide +kernel)
  exact ⟨s, hs, beq_iff_eq.1 h, by decide +kernel⟩

theorem lastStable_iff_zero : ∃ s,
    Run.run (step CowState.twoBlocks ⟨4, 1, 0, false⟩) (new ⟨4, 1, 0, false⟩ Replica.fourReplicas.P)
      [fromReplica 1 0 [7], fromReplica 2 2 [7]] =
        some s ∧
      IsLastStable ⟨4, 1, 0, false⟩ (latest CowState.twoBlocks ⟨4,
            1, 0, false⟩ [fromReplica 1 0 [7], fromReplica 2 2 [7]]) s.tally.ls := by
  obtain ⟨s, hs, -⟩ :=
    (Option.any_eq_true _ _).1 (show (Run.run (step CowState.twoBlocks ⟨4, 1, 0, false⟩)
    (new ⟨4, 1, 0, false⟩ Replica.fourReplicas.P) [fromReplica 1 0 [7], fromReplica 2 2 [7]]).any
      (fun _ => true) = true by decide +kernel)
  exact ⟨s, hs, ((lastStable_iff (by decide) new_cleared (by simp [fromReplica_own]) hs).2
    (by decide +kernel)).1⟩

end MetaDataCert

end TinyBFT
