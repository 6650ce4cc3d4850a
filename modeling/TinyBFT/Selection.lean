import TinyBFT.NVCalls
import TinyBFT.Lib.Run
import TinyBFT.Lib.Count

/-!
# The selection rule of a new view

A request `(v, d)` may be selected for a sequence number only if `2f + 1` view-changes do not
contradict it: those that prepared no request there, or one of a smaller view, or exactly this one.
`n_le` counts them, at a primary as they come in (`summarize_reqs`), at a backup all at once
(`check_new_view`).

A primary counts an entry's view-changes one by one, and starts a new entry with the number of
entries of smaller views: each of them comes from another view-change, so `n_le` never exceeds the
number of view-changes that support the entry. A backup counts every view-change whose request is
not of a larger view; it does not look at the digest (`NV_info.cc:652`), and one that prepared
another request in the same view counts as well.

| here | there |
| --- | --- |
| `supports`       | the condition on `vc->req(i)` that `summarize_reqs` checks (`NV_info.cc:505-522`) |
| `NVOp`, `nvStep` | the operations of `NV_info`, for verified messages; `newNewView` is `View_info.cc:261` |
| `store`          | `vcs[vcid].vc = m; vc_cur++` (`NV_info.cc:194-195`) |
| `agree`          | no stored view-change prepared another request in the view of a pick |
-/

namespace TinyBFT

namespace NVInfo

open Prog (Ensures Reaches Within Composes Holds get modify assert ofOption when each eachUntil)

/-- `vc` prepared nothing for `i` that contradicts the request `(v, d)`; a null request is in view
`-1`. -/
def supports (P : Params) (i v : Int) (d : Digest) (vc : ViewChange) : Bool :=
  match vc.req P i with
  | some (rv, rd) => decide (rv < v ∨ rv = v ∧ rd = d)
  | none => false

/-- The stored view-changes among `p` that support `(v, d)` for `i`. -/
def support (cfg : Cfg) (vcOf : Nat → Option ViewChange) (p : Nat → Bool) (i v : Int)
    (d : Digest) : Nat :=
  (List.range cfg.n).countP fun j => p j && (vcOf j).any (supports cfg.P i v d)

def supporters (cfg : Cfg) (s : NVInfo) (i v : Int) (d : Digest) : Nat :=
  support cfg s.vcOf (fun _ => true) i v d

/-! ## Runs -/

inductive NVOp
  | newNewView (v : Int)
  | addNewView (m : NewView)
  | addViewChange (m : ViewChange) (verified digestOk : Bool)
  | addAck (m : ViewChangeAck)
  | fetchRequest (n : Int)
  | addMissing (pp : PrePrepareMsg) (digestOk : Bool)
  | addMissingPrepare (p : Prepare)
  | markStable (ls : Int)
  | markStale

/-- An operation, and what the parent's log answers meanwhile. -/
structure NVStep where
  op : NVOp
  prePrepare : Int → Digest → Option (Option PrePrepareMsg)
  prepare : Int → Digest → Bool

/-- The message passed `verify`, or is the replica's own; `verify_auth_in` turns down a message in
the replica's own name. -/
def NVOp.verified (cfg : Cfg) (id : Nat) : NVOp → Bool
  | .newNewView v => cfg.primary v == id && decide (0 < v)
  | .addNewView m => m.wellFormed cfg && m.id cfg != id
  | .addViewChange m .. => m.wellFormed cfg
  | .addAck m => m.wellFormed cfg
  | _ => true

def NVOp.perform (V : NVEnv) : NVOp → Prog NVInfo Unit
  | .newNewView v => do let _ ← NVInfo.addNewView V (NewView.new v)
  | .addNewView m => do let _ ← NVInfo.addNewView V m
  | .addViewChange m verified digestOk => do let _ ← NVInfo.addViewChange V m verified digestOk
  | .addAck m => do let _ ← NVInfo.addAck V m
  | .fetchRequest n => do let _ ← NVInfo.fetchRequest V n
  | .addMissing pp digestOk => NVInfo.addMissing V pp digestOk
  | .addMissingPrepare p => NVInfo.addMissingPrepare V p
  | .markStable ls => NVInfo.markStable V ls
  | .markStale => do let _ ← NVInfo.markStale V

/-- One operation; the calls that it leaves are made. `none` if it stops. -/
def nvStep (cfg : Cfg) (id : Nat) (s : NVInfo) (a : NVStep) : Option NVInfo :=
  if a.op.verified cfg id then
    match a.op.perform ⟨cfg, id, a.prePrepare, a.prepare⟩ s with
    | (some _, t) => some { t with calls := [] }
    | (none, _) => none
  else none

def store (m : ViewChange) (s : NVInfo) : NVInfo :=
  { s with vcs := Function.update s.vcs m.id { s.vcs m.id with vc := some m },
           vcCur := s.vcCur + 1 }

/-- Whoever prepared a request for `i` in view `v` prepared the one with digest `d`. -/
def agreeOn (cfg : Cfg) (s : NVInfo) (i v : Int) (d : Digest) : Bool :=
  (List.range cfg.n).all fun j => (s.vcOf j).all
    fun vc => (vc.req cfg.P i).all fun r => decide (r.1 = v → r.2 = d)

/-- The view-changes agree with the request that is picked for `i`. -/
def agreeAt (cfg : Cfg) (s : NVInfo) (i : Int) : Bool :=
  ((s.pickedVC i).bind (·.req cfg.P i)).all fun r => agreeOn cfg s i r.1 r.2

def agree (cfg : Cfg) (s : NVInfo) : Bool :=
  s.nv.all fun nv => (intRange (nv.min + 1) nv.max).all (agreeAt cfg s)

/-- Where a backup gets the last view-change that it waits for, no view-change prepared another
request in the view of a pick. -/
def agreeing (cfg : Cfg) (id : Nat) (s : NVInfo) (a : NVStep) : Bool :=
  match a.op with
  | .addViewChange m .. =>
    cfg.primary s.v == id || s.vcCur + 1 != s.vcTarget || agree cfg (s.store m)
  | _ => true

/-! ## The support of a request -/

section Support

variable {cfg : Cfg} {F G : Nat → Option ViewChange} {p q : Nat → Bool} {i v : Int} {d : Digest}

theorem supports_req {P : Params} {vc : ViewChange} (h : supports P i v d vc = true) :
    ∃ r, vc.req P i = some r ∧ (r.1 < v ∨ r.1 = v ∧ r.2 = d) := by
  unfold supports at h
  split at h
  · rename_i rv rd hr
    exact ⟨(rv, rd), hr, by simpa using h⟩
  · cases h

theorem supports_of_req {P : Params} {vc : ViewChange} {r : Int × Digest}
    (hr : vc.req P i = some r) :
    supports P i v d vc = decide (r.1 < v ∨ r.1 = v ∧ r.2 = d) := by
  simp [supports, hr]

theorem support_mono (h : ∀ j m, p j = true → F j = some m → q j = true ∧ G j = some m) :
    support cfg F p i v d ≤ support cfg G q i v d := by
  refine List.countP_mono_left fun j _ hj => ?_
  obtain ⟨hp, hF⟩ : p j = true ∧ (F j).any (supports cfg.P i v d) = true := by simpa using hj
  obtain ⟨m, hm, hs⟩ := (Option.any_eq_true _ _).1 hF
  obtain ⟨hq, hG⟩ := h j m hp hm
  simp [hq, hG, hs]

/-- One more view-change is counted. -/
theorem support_insert {id : Nat} {vc : ViewChange} (hn : id < cfg.n) (hp : p id = false)
    (hF : F id = some vc) (hq : q = Function.update p id true) :
    support cfg F q i v d = support cfg F p i v d + if supports cfg.P i v d vc then 1 else 0 := by
  unfold support
  rw [Count.countP_insert (a := id) (P := fun j => p j && (F j).any (supports cfg.P i v d))
    List.nodup_range (List.mem_range.2 hn)]
  · simp [hq, hF]
  · simp [hp]
  · intro x hx
    simp [hq, hx]

/-- Entries that stem from different view-changes, all of smaller views. -/
theorem smaller_le {r : List ReqSum} (hn : ∀ j m, F j = some m → j < cfg.n)
    (hids : (r.map (·.id)).Nodup)
    (hmade : ∀ c ∈ r, p c.id = true ∧ ∃ vc, F c.id = some vc ∧ vc.req cfg.P i = some (c.v, c.d)) :
    (r.filter fun c => c.v < v).length ≤ support cfg F p i v d := by
  have hsub : ((r.filter fun c => c.v < v).map (·.id)).Nodup :=
    hids.sublist (List.Sublist.map _ List.filter_sublist)
  have hcounted : ∀ j ∈ (r.filter fun c => c.v < v).map (·.id),
      j ∈ List.range cfg.n ∧ (p j && (F j).any (supports cfg.P i v d)) = true := by
    intro j hj
    obtain ⟨c, hc, rfl⟩ := List.mem_map.1 hj
    obtain ⟨hc, hlt⟩ := List.mem_filter.1 hc
    have hlt : c.v < v := by simpa using hlt
    obtain ⟨hp, vc, hF, hreq⟩ := hmade c hc
    simp [hn _ _ hF, hp, hF, supports_of_req hreq, hlt]
  have hle := Count.length_le_countP hsub hcounted
  rw [List.length_map] at hle
  exact hle

end Support

/-! ## What the counting depends on -/

structure Tally where
  v : Int
  d : Digest
  nLe : Nat
  id : Nat

def tally (cur : ReqSum) : Tally := ⟨cur.v, cur.d, cur.nLe, cur.id⟩

/-- The fields of an `NV_info` that the counting depends on. -/
structure Sig where
  v : Int
  vcs : Nat → Option ViewChange × Bool
  vcCur : Nat
  vcTarget : Nat
  chosen : Bool
  noRows : Bool
  cells : Int → Nat → Option Tally

def sig (s : NVInfo) : Sig where
  v := s.v
  vcs j := ((s.vcs j).vc, (s.vcs j).reqSum)
  vcCur := s.vcCur
  vcTarget := s.vcTarget
  chosen := s.chosenCkpt.isSome
  noRows := s.reqs.isEmpty
  cells i j := (s.cell i j).map tally

/-- Only an entry with a quorum is marked complete. -/
def Marked (cfg : Cfg) (s : NVInfo) : Prop :=
  ∀ i j, s.comp i = some (some j) → ∃ cur, s.cell i j = some cur ∧ cfg.nf ≤ cur.nLe

/-- The view-changes that the entries of the `NV_info` count. -/
def counted (cfg : Cfg) (id : Nat) (s : NVInfo) (j : Nat) : Bool :=
  cfg.primary s.v != id || (s.vcs j).reqSum

structure Tallied (cfg : Cfg) (id : Nat) (s : NVInfo) : Prop where
  filed : ∀ j m, s.vcOf j = some m → m.id = j ∧ j < cfg.n
  zero : s.v = 0 → s.reqs = []
  /-- A primary has no rows before it chooses a checkpoint, … -/
  empty : cfg.primary s.v = id → s.chosenCkpt = none → s.reqs = []
  /-- … and a backup none before it has the view-changes. -/
  early : cfg.primary s.v ≠ id → s.vcCur < s.vcTarget → s.reqs = []
  le : ∀ i j c, s.cell i j = some c → c.nLe ≤ support cfg s.vcOf (s.counted cfg id) i c.v c.d
  /-- An entry is the request of a view-change that was counted, … -/
  made : ∀ i j c, s.cell i j = some c →
    s.counted cfg id c.id = true ∧ ∃ vc, s.vcOf c.id = some vc ∧ vc.req cfg.P i = some (c.v, c.d)
  /-- … at a primary of another one for each entry. -/
  ids : cfg.primary s.v = id → ∀ i j j' c c', s.cell i j = some c →
    s.cell i j' = some c' → c.id = c'.id → j = j'
  marked : Marked cfg s

variable {V : NVEnv} {cfg : Cfg} {id : Nat} {s t u : NVInfo}

theorem Tallied.of_sig (h : Tallied cfg id s) (hs : t.sig = s.sig) (hm : Marked cfg t) :
    Tallied cfg id t := by
  simp only [sig, Sig.mk.injEq] at hs
  obtain ⟨hv, hvcs, hcur, htarget, hch, hrows, hcells⟩ := hs
  have hvc : t.vcOf = s.vcOf := by
    ext j : 1
    exact congrArg Prod.fst (congrFun hvcs j)
  have hco : t.counted cfg id = s.counted cfg id := by
    ext j : 1
    simp only [counted, hv, show (t.vcs j).reqSum = (s.vcs j).reqSum from
      congrArg Prod.snd (congrFun hvcs j)]
  have hnil : s.reqs = [] → t.reqs = [] := by
    intro hr
    simpa [hr] using hrows
  have hcell : ∀ i j c, t.cell i j = some c → ∃ c', s.cell i j = some c' ∧ tally c' = tally c := by
    intro i j c hc
    have := congrFun (congrFun hcells i) j
    rw [hc, Option.map_some] at this
    exact Option.map_eq_some_iff.1 this.symm
  constructor
  · rw [hvc]
    exact h.filed
  · rw [hv]
    exact fun hz => hnil (h.zero hz)
  · rw [hv]
    intro hp hn
    refine hnil (h.empty hp ?_)
    rw [hn] at hch
    simpa using hch.symm
  · rw [hv, hcur, htarget]
    exact fun hp hlt => hnil (h.early hp hlt)
  · intro i j c hc
    obtain ⟨c', hc', heq⟩ := hcell i j c hc
    simp only [tally, Tally.mk.injEq] at heq
    obtain ⟨h1, h2, h3, -⟩ := heq
    rw [hvc, hco, ← h1, ← h2, ← h3]
    exact h.le i j c' hc'
  · intro i j c hc
    obtain ⟨c', hc', heq⟩ := hcell i j c hc
    simp only [tally, Tally.mk.injEq] at heq
    obtain ⟨h1, h2, -, h4⟩ := heq
    rw [hvc, hco, ← h1, ← h2, ← h4]
    exact h.made i j c' hc'
  · rw [hv]
    intro hp i j j' c c' hc hc' hid
    obtain ⟨b, hb, heq⟩ := hcell i j c hc
    obtain ⟨b', hb', heq'⟩ := hcell i j' c' hc'
    simp only [tally, Tally.mk.injEq] at heq heq'
    exact h.ids hp i j j' b b' hb hb' (by rw [heq.2.2.2, heq'.2.2.2, hid])
  · exact hm

/-- An operation that counts nothing; at a backup it keeps the new-view message. -/
structure Quiet (V : NVEnv) (s t : NVInfo) : Prop where
  sig : t.sig = s.sig
  marked : Marked V.cfg s → Marked V.cfg t
  nv : s.isPrimary V = false → t.nv = s.nv

theorem Quiet.refl (s : NVInfo) : Quiet V s s := ⟨rfl, fun h => h, fun _ => rfl⟩

theorem Quiet.v (h : Quiet V s t) : t.v = s.v := congrArg Sig.v h.sig

theorem Quiet.vcOf (h : Quiet V s t) : t.vcOf = s.vcOf := by
  ext j : 1
  exact congrArg Prod.fst (congrFun (congrArg Sig.vcs h.sig) j)

theorem Quiet.tallied (h : Quiet V s t) (hs : Tallied V.cfg id s) : Tallied V.cfg id t :=
  hs.of_sig h.sig (h.marked hs.marked)

theorem quiet_composes : Composes (Quiet V) (fun _ _ => True) where
  step := by
    intro s t u h h'
    refine ⟨h'.sig.trans h.sig, fun hs => h'.marked (h.marked hs), fun hp => ?_⟩
    rw [h'.nv (by rw [NVInfo.isPrimary, h.v]; exact hp), h.nv hp]
  crash _ _ := trivial

/-! ## What counts nothing -/

theorem row_eq {i : Int} {k : Nat} (h : s.row i = some k) :
    0 ≤ i - s.base ∧ k = (i - s.base).toNat ∧ k < s.reqs.length := by
  unfold row at h
  split at h
  · rename_i hb
    cases h
    exact ⟨hb.1, rfl, by omega⟩
  · cases h

/-- One row is changed. -/
theorem cell_modify {i : Int} {k : Nat} {r : List ReqSum} {g : List ReqSum → List ReqSum}
    (hk : s.row i = some k) (hr : s.reqs[k]? = some r) (hb : t.base = s.base)
    (ht : t.reqs = s.reqs.modify k g) (i' : Int) (j : Nat) :
    t.cell i' j = if i' = i then (g r)[j]? else s.cell i' j := by
  obtain ⟨h0, hki, -⟩ := row_eq hk
  have hrow : t.row i' = s.row i' := by simp [row, hb, ht]
  unfold cell
  simp only [hrow, Option.bind_eq_bind]
  by_cases hi : i' = i
  · subst hi
    simp [hk, ht, List.getElem?_modify, hr]
  · rw [if_neg hi]
    cases hk' : s.row i' with
    | none => rfl
    | some k' =>
      obtain ⟨h0', hki', -⟩ := row_eq hk'
      have hne : k ≠ k' := by omega
      simp [ht, List.getElem?_modify, hne]

theorem cell_eq_some {i : Int} {j : Nat} {cur : ReqSum} :
    s.cell i j = some cur ↔ ∃ k r, s.row i = some k ∧ s.reqs[k]? = some r ∧ r[j]? = some cur := by
  simp only [cell, Option.bind_eq_bind, Option.bind_eq_some_iff]
  constructor
  · rintro ⟨k, hk, r, hr, hj⟩
    exact ⟨k, r, hk, hr, hj⟩
  · rintro ⟨k, r, hk, hr, hj⟩
    exact ⟨k, hk, r, hr, hj⟩

theorem cell_setCell {i : Int} {j : Nat} {old : ReqSum} (h : s.cell i j = some old) (cur : ReqSum)
    (i' : Int) (j' : Nat) :
    (NVInfo.setCell i j cur s).cell i' j' = if i' = i ∧ j' = j then some cur else s.cell i' j' := by
  obtain ⟨k, r, hk, hr, hj⟩ := cell_eq_some.1 h
  obtain ⟨-, hki, -⟩ := row_eq hk
  rw [cell_modify (t := NVInfo.setCell i j cur s) (g := fun r => r.set j cur)
    hk hr rfl (by simp [NVInfo.setCell, hki])]
  by_cases hi : i' = i
  · subst hi
    have hlt := (List.getElem?_eq_some_iff.1 hj).1
    by_cases hjj : j' = j
    · subst hjj
      simp [hlt]
    · simp [hjj, List.getElem?_set_ne (Ne.symm hjj), cell, hk, hr]
  · simp [hi]

theorem comp_of_rows (hb : t.base = s.base) (hl : t.reqs.length = s.reqs.length)
    (hc : t.compReqs = s.compReqs) (i : Int) :
    t.comp i = s.comp i := by
  simp [comp, row, hb, hl, hc]

/-- Entries are only added, and counts only grow. -/
theorem Marked.grow (h : Marked cfg s) (hb : t.base = s.base) (hl : t.reqs.length = s.reqs.length)
    (hc : t.compReqs = s.compReqs)
    (hcell : ∀ i j cur, s.cell i j = some cur → ∃ cur',
      t.cell i j = some cur' ∧ cur.nLe ≤ cur'.nLe) : Marked cfg t := by
  intro i j hij
  rw [comp_of_rows hb hl hc] at hij
  obtain ⟨cur, hcur, hle⟩ := h i j hij
  obtain ⟨cur', hcur', hle'⟩ := hcell i j cur hcur
  exact ⟨cur', hcur', hle.trans hle'⟩

theorem Marked.setCell {i : Int} {j : Nat} {old cur : ReqSum} (h : Marked cfg s)
    (hc : s.cell i j = some old) (hle : old.nLe ≤ cur.nLe) :
    Marked cfg (NVInfo.setCell i j cur s) := by
  refine h.grow rfl (by simp [NVInfo.setCell]) rfl fun i' j' c hc' => ?_
  rw [cell_setCell hc]
  split
  · rename_i heq
    obtain ⟨rfl, rfl⟩ := heq
    rw [hc] at hc'
    cases hc'
    exact ⟨cur, rfl, hle⟩
  · exact ⟨c, hc', le_rfl⟩

/-- What is not counted of an entry is changed. -/
theorem quiet_setCell {i : Int} {j : Nat} {old cur : ReqSum} (hc : s.cell i j = some old)
    (ht : tally cur = tally old) :
    Quiet V s (NVInfo.setCell i j cur s) := by
  constructor
  · have hcells : (fun i' j' => ((NVInfo.setCell i j cur s).cell i' j').map tally) =
      fun i' j' => (s.cell i' j').map tally := by
      ext1 i'
      ext1 j'
      rw [cell_setCell hc]
      split
      · rename_i heq
        obtain ⟨rfl, rfl⟩ := heq
        simp [hc, ht]
      · rfl
    have hrows : (NVInfo.setCell i j cur s).reqs.isEmpty = s.reqs.isEmpty := by
      rw [Bool.eq_iff_iff]
      simp [NVInfo.setCell, List.isEmpty_iff]
    simp only [sig, hcells, hrows]
    rfl
  · intro hm
    exact hm.setCell hc (congrArg Tally.nLe ht).ge
  · exact fun _ => rfl

/-- The entry that `check_comp` marks complete has a quorum. -/
theorem quiet_setComp {i : Int} {j : Nat} {cur : ReqSum} (hc : s.cell i j = some cur)
    (hle : V.cfg.nf ≤ cur.nLe) :
    Quiet V s (setComp i j s) := by
  refine ⟨rfl, ?_, fun _ => rfl⟩
  · intro hm i' j' hij
    obtain ⟨k, r, hk, -, -⟩ := cell_eq_some.1 hc
    obtain ⟨h0, hki, -⟩ := row_eq hk
    have hrow : (setComp i j s).row i' = s.row i' := rfl
    simp only [comp, hrow, Option.bind_eq_bind, Option.bind_eq_some_iff] at hij
    obtain ⟨k', hk', hij⟩ := hij
    obtain ⟨h0', hki', -⟩ := row_eq hk'
    by_cases hi : i' = i
    · subst hi
      have hij : (s.compReqs.set k' (some j))[k']? = some (some j') := by
        simpa [setComp, ← hki'] using hij
      rw [List.getElem?_set_self' ] at hij
      obtain ⟨_, -, heq⟩ := Option.map_eq_some_iff.1 hij
      cases heq
      exact ⟨cur, hc, hle⟩
    · refine hm i' j' ?_
      have hne : (i - s.base).toNat ≠ k' := by omega
      simpa [comp, hk', setComp, List.getElem?_set_ne hne] using hij

/-- Fields are changed that neither the counts nor the marks depend on. -/
theorem quiet_of_eq (hs : t.sig = s.sig) (hb : t.base = s.base) (hr : t.reqs = s.reqs)
    (hc : t.compReqs = s.compReqs) (hn : s.isPrimary V = false → t.nv = s.nv) : Quiet V s t := by
  refine ⟨hs, fun hm => hm.grow hb (by rw [hr]) hc fun i j cur hcur => ⟨cur, ?_, le_rfl⟩, hn⟩
  simpa [cell, row, hb, hr] using hcur

/-- An operation that counts nothing and chooses nothing. -/
structure Steady (V : NVEnv) (s t : NVInfo) : Prop extends Quiet V s t where
  min : t.min = s.min
  max : t.max = s.max
  ckpts : t.ckpts = s.ckpts
  chosen : t.chosenCkpt = s.chosenCkpt
  named : t.inNewView V.cfg = s.inNewView V.cfg
  complete : s.isComplete = true → t.isComplete = true

theorem Steady.refl (s : NVInfo) : Steady V s s := ⟨.refl s, rfl, rfl, rfl, rfl, rfl, fun h => h⟩

theorem steady_composes : Composes (Steady V) (fun _ _ => True) where
  step := by
    intro s t u h h'
    exact ⟨quiet_composes.step h.toQuiet h'.toQuiet, h'.min.trans h.min,
      h'.max.trans h.max, h'.ckpts.trans h.ckpts,
      h'.chosen.trans h.chosen, h'.named.trans h.named, fun hs => h'.complete (h.complete hs)⟩
  crash _ _ := trivial

/-- The program counts nothing and chooses nothing. -/
abbrev Calm {α : Type} (V : NVEnv) (x : Prog NVInfo α) (s : NVInfo) : Prop :=
  Within (Steady V) (fun _ _ => True) x s

theorem calm_modify_bind {α : Type} {g : NVInfo → NVInfo} {f : Unit → Prog NVInfo α}
    (h : Steady V s (g s)) (hf : Calm V (f ()) (g s)) : Calm V (modify g >>= f) s :=
  .modify_bind steady_composes h hf

theorem steady_setCell {i : Int} {j : Nat} {old cur : ReqSum} (hc : s.cell i j = some old)
    (ht : tally cur = tally old) :
    Steady V s (NVInfo.setCell i j cur s) :=
  ⟨quiet_setCell hc ht, rfl, rfl, rfl, rfl, rfl, fun h => h⟩

theorem inNewView_of_nv (h : t.nv.map (·.vcInfo) = s.nv.map (·.vcInfo)) :
    t.inNewView cfg = s.inNewView cfg := by
  ext1 j
  simp only [inNewView]
  cases hs : s.nv with
  | none =>
    rw [hs] at h
    cases ht : t.nv with
    | none => rfl
    | some m' =>
      rw [ht] at h
      cases h
  | some m =>
    rw [hs] at h
    cases ht : t.nv with
    | none =>
      rw [ht] at h
      cases h
    | some m' =>
      rw [ht] at h
      have hinfo : m'.vcInfo = m.vcInfo := by simpa using h
      simp [NewView.viewChange, hinfo]

theorem pickAll_vcInfo {is : List Int} {m m' : NewView} (h : pickAll V s is m = some m') :
    m'.vcInfo = m.vcInfo := by
  induction is generalizing m with
  | nil =>
    cases h
    rfl
  | cons i is ih =>
    simp only [pickAll, Option.bind_eq_bind, Option.bind_eq_some_iff] at h
    obtain ⟨c, -, j, -, cur, -, h⟩ := h
    split at h
    · obtain ⟨m1, h1, h⟩ := Option.bind_eq_some_iff.1 h
      rw [ih h]
      simp only [NewView.pick, Option.ite_none_right_eq_some] at h1
      rw [← Option.some.inj h1.2]
    · cases h

/-- The picks leave the view-changes in the message. -/
theorem finished_vcInfo {m : NewView} (h : s.finished V = some m) :
    s.nv.map (·.vcInfo) = some m.vcInfo := by
  simp only [finished, Option.bind_eq_bind, Option.bind_eq_some_iff] at h
  obtain ⟨k, -, ck, -, nv, hnv, m1, h1, m2, h2, m3, h3, m4, h4, h5⟩ := h
  split at h5
  · cases h5
    simp only [NewView.setMin, NewView.pick, NewView.setMax,
      Option.ite_none_right_eq_some] at h1 h2 h4
    rw [hnv, Option.map_some, ← Option.some.inj h4.2,
      pickAll_vcInfo h3, ← Option.some.inj h2.2, ← Option.some.inj h1.2]
  · cases h5

theorem makeNewView_calm (s : NVInfo) : Calm V (makeNewView V) s := by
  refine .get_bind (.assert_bind trivial fun ha => .ofOption_bind trivial fun nv hnv => ?_)
  have hp : s.isPrimary V = true := by
    have := (Bool.and_eq_true_iff.1 (Bool.and_eq_true_iff.1 ha).1).1
    exact this
  have hq : Quiet V s { s with nv := some nv, nvSent := true } :=
    quiet_of_eq rfl rfl rfl rfl fun hb => by simp [hp] at hb
  refine calm_modify_bind ⟨hq, rfl, rfl, rfl, rfl,
    inNewView_of_nv (finished_vcInfo hnv).symm, fun h => h⟩ ?_
  refine .ofOption_bind trivial fun ks _ => .ofOption_bind trivial fun ck _ => ?_
  exact .modify ⟨quiet_of_eq rfl rfl rfl rfl fun _ => rfl, rfl, rfl, rfl, rfl, rfl, fun h => h⟩

theorem finishBackup_calm (s : NVInfo) : Calm V (finishBackup V) s := by
  refine .get_bind (.ofOption_bind trivial fun nv _ => .ofOption_bind trivial fun vc _ => ?_)
  refine .ofOption_bind trivial fun d _ => .assert_bind trivial
    fun _ => .ofOption_bind trivial fun ks _ => ?_
  exact .modify ⟨quiet_of_eq rfl rfl rfl rfl fun _ => rfl, rfl, rfl, rfl, rfl, rfl, fun h => h⟩

theorem finishIf_calm {fin : Prog NVInfo Unit} (h : ∀ t, Calm V fin t) (s : NVInfo) :
    Calm V (finishIf fin) s := by
  refine .get_bind (.when (.refl s) fun _ => ?_)
  exact calm_modify_bind ⟨quiet_of_eq rfl rfl rfl rfl
    fun _ => rfl, rfl, rfl, rfl, rfl, rfl, fun _ => rfl⟩ (h _)

theorem finish_calm (s : NVInfo) : Calm V (finish V) s := by
  refine finishIf_calm (fun t => ?_) s
  exact .get_bind (.ite (fun _ => makeNewView_calm t) fun _ => finishBackup_calm t)

theorem fromLog_tally {cur cur' : ReqSum} {i : Int} (h : fromLog V s cur i = some cur') :
    tally cur' = tally cur := by
  have hlast : ∀ {c : ReqSum},
    (some (if c.nPproofs ≤ V.cfg.f && V.prepare i c.d then { c with nPproofs := V.cfg.n } else c)) =
      some cur' → tally cur' = tally c := by
    intro c hc
    cases hc
    split <;> rfl
  simp only [fromLog, Option.bind_eq_bind] at h
  split at h
  · exact hlast h
  · obtain ⟨c, hc, h⟩ := Option.bind_eq_some_iff.1 h
    obtain ⟨o, -, heq⟩ := Option.map_eq_some_iff.1 hc
    rw [hlast h, ← heq]
    cases o <;> rfl

/-- `check_comp` marks an entry with a quorum. -/
theorem checkComp_calm (s : NVInfo) (i : Int) (j : Nat) : Calm V (checkComp V i j) s := by
  refine .get_bind (.assert_bind trivial fun _ => .ofOption_bind trivial fun cur hcur => ?_)
  refine .ofOption_bind trivial fun done _ => .ite (fun hc => ?_) fun _ => finish_calm s
  refine .ofOption_bind trivial fun cur' hcur' => ?_
  have ht := fromLog_tally hcur'
  have hnf : V.cfg.nf ≤ cur'.nLe := by
    have h1 : V.cfg.nf ≤ cur.nLe := by
      have := (Bool.and_eq_true_iff.1 (Bool.and_eq_true_iff.1 hc).2).2
      simpa using this
    exact h1.trans (congrArg Tally.nLe ht).ge
  refine calm_modify_bind (steady_setCell hcur ht) (.ite (fun _ => ?_) fun _ => .pure (.refl _))
  have hcell : (NVInfo.setCell i j cur' s).cell i j = some cur' := by simp [cell_setCell hcur]
  exact calm_modify_bind ⟨quiet_setComp hcell hnf, rfl,
    rfl, rfl, rfl, rfl, fun h => h⟩ (finish_calm _)

/-! ## The primary -/

theorem getProofs_tally {cur cur' : ReqSum} {vc : ViewChange} {i : Int}
    (h : getProofs V cur vc i = some cur') :
    tally cur' = tally cur := by
  obtain ⟨n, pp, r, rfl⟩ := getProofs_counts h
  rfl

/-- **`n_le` of an entry** grows by one with every view-change that supports it. -/
theorem countReq_tally {cur cur' : ReqSum} {vc : ViewChange} {i : Int} {r : Int × Digest}
    (hr : vc.req V.cfg.P i = some r) (h : countReq V vc i r.1 r.2 cur = some cur') :
    tally cur' =
      { tally cur with nLe := cur.nLe + if supports V.cfg.P i cur.v cur.d vc then 1 else 0 } := by
  rw [supports_of_req hr]
  unfold countReq at h
  split at h
  · rename_i heq
    cases h
    simp [tally, heq.1, heq.2]
  · rename_i hne
    obtain ⟨c, hc, heq⟩ := Option.map_eq_some_iff.1 h
    have hct := getProofs_tally hc
    simp only [tally, Tally.mk.injEq] at hct
    obtain ⟨h1, h2, h3, h4⟩ := hct
    have hiff : (r.1 < cur.v ∨ r.1 = cur.v ∧ r.2 = cur.d) ↔ r.1 < cur.v := by
      constructor
      · rintro (hlt | ⟨hv, hd⟩)
        · exact hlt
        · exact absurd ⟨hv.symm, hd.symm⟩ hne
      · exact Or.inl
    have hdec : decide (r.1 < cur.v ∨ r.1 = cur.v ∧ r.2 = cur.d) = decide (r.1 < cur.v) := by
      simp [hiff]
    rw [← heq, hdec, h1]
    by_cases hlt : r.1 < cur.v
    · rw [if_pos hlt]
      simp [tally, hlt, h2, h3, h4]
    · rw [if_neg hlt]
      simp [tally, hlt, h1, h2, h3, h4]

theorem searchProofs_tally {cur cur' : ReqSum} {i : Int} (h : searchProofs V s i cur = some cur') :
    tally cur' = tally cur :=
  searchProofs_keeps tally getProofs_tally h

/-- The count of an entry grows. -/
theorem Tallied.setCell {i : Int} {j : Nat} {old cur : ReqSum} (h : Tallied cfg id s)
    (hc : s.cell i j = some old) {n : Nat} (ht : tally cur = { tally old with nLe := n })
    (hge : old.nLe ≤ n) (hle : n ≤ support cfg s.vcOf (s.counted cfg id) i old.v old.d) :
    Tallied cfg id (NVInfo.setCell i j cur s) := by
  simp only [tally, Tally.mk.injEq] at ht
  obtain ⟨hv, hd, hn, hid⟩ := ht
  have hnil : s.reqs = [] → (NVInfo.setCell i j cur s).reqs = [] := by
    intro hr
    simp [NVInfo.setCell, hr]
  -- an entry of the new state is an old one with another count
  have hcell : ∀ i' j' c, (NVInfo.setCell i j cur s).cell i' j' = some c → ∃ c',
    s.cell i' j' = some c' ∧ c'.v = c.v ∧
      c'.d = c.d ∧ c'.id = c.id ∧ c.nLe ≤ support cfg s.vcOf (s.counted cfg id) i' c.v c.d := by
    intro i' j' c hc'
    rw [cell_setCell hc] at hc'
    split at hc'
    · rename_i heq
      obtain ⟨rfl, rfl⟩ := heq
      cases hc'
      refine ⟨old, hc, hv.symm, hd.symm, hid.symm, ?_⟩
      rw [hn, hv, hd]
      exact hle
    · exact ⟨c, hc', rfl, rfl, rfl, h.le i' j' c hc'⟩
  constructor
  · exact h.filed
  · exact fun hz => hnil (h.zero hz)
  · exact fun hp hch => hnil (h.empty hp hch)
  · exact fun hp hlt => hnil (h.early hp hlt)
  · intro i' j' c hc'
    obtain ⟨-, -, -, -, -, hle'⟩ := hcell i' j' c hc'
    exact hle'
  · intro i' j' c hc'
    obtain ⟨c', h1, h2, h3, h4, -⟩ := hcell i' j' c hc'
    rw [← h2, ← h3, ← h4]
    exact h.made i' j' c' h1
  · intro hp i' j1 j2 c1 c2 h1 h2 heq
    obtain ⟨c1', h1', -, -, hid1, -⟩ := hcell i' j1 c1 h1
    obtain ⟨c2', h2', -, -, hid2, -⟩ := hcell i' j2 c2 h2
    exact h.ids hp i' j1 j2 c1' c2' h1' h2' (by rw [hid1, hid2, heq])
  · exact h.marked.setCell hc (by omega)

/-- An entry is added to a row. -/
theorem Tallied.push {i : Int} {k : Nat} {r : List ReqSum} {cur : ReqSum} (h : Tallied cfg id s)
    (hk : s.row i = some k) (hr : s.reqs[k]? = some r)
    (hle : cur.nLe ≤ support cfg s.vcOf (s.counted cfg id) i cur.v cur.d)
    (hmade : s.counted cfg id cur.id = true ∧ ∃ vc,
      s.vcOf cur.id = some vc ∧ vc.req cfg.P i = some (cur.v, cur.d))
    (hfresh : cfg.primary s.v = id → ∀ j c, s.cell i j = some c → c.id ≠ cur.id) :
    Tallied cfg id { s with reqs := s.reqs.modify k fun r => r ++ [cur] } := by
  set t : NVInfo := { s with reqs := s.reqs.modify k fun r => r ++ [cur] } with ht
  have hnil : s.reqs = [] → t.reqs = [] := by
    intro hr
    simp [ht, hr]
  have hget : ∀ i' j', t.cell i' j' = if i' = i ∧ j' = r.length then some cur
    else s.cell i' j' := by
    intro i' j'
    rw [cell_modify (t := t) (g := fun r => r ++ [cur]) hk hr rfl rfl]
    by_cases hi : i' = i
    · subst hi
      have hold : s.cell i' j' = r[j']? := by simp [cell, hk, hr]
      rw [if_pos rfl, hold]
      by_cases hj : j' = r.length
      · simp [hj]
      · rw [if_neg (by simp [hj])]
        rcases Nat.lt_or_gt_of_ne hj with hlt | hgt
        · exact List.getElem?_append_left hlt
        · rw [List.getElem?_eq_none (by simp; omega), List.getElem?_eq_none (by omega)]
    · simp [hi]
  have hcell : ∀ i' j' c, t.cell i' j' = some c → (i' = i ∧ j' = r.length ∧ c = cur) ∨
    s.cell i' j' = some c := by
    intro i' j' c hc
    rw [hget] at hc
    split at hc
    · rename_i heq
      cases hc
      exact .inl ⟨heq.1, heq.2, rfl⟩
    · exact .inr hc
  constructor
  · exact h.filed
  · exact fun hz => hnil (h.zero hz)
  · exact fun hp hch => hnil (h.empty hp hch)
  · exact fun hp hlt => hnil (h.early hp hlt)
  · intro i' j' c hc
    rcases hcell i' j' c hc with ⟨rfl, -, rfl⟩ | hc
    · exact hle
    · exact h.le i' j' c hc
  · intro i' j' c hc
    rcases hcell i' j' c hc with ⟨rfl, -, rfl⟩ | hc
    · exact hmade
    · exact h.made i' j' c hc
  · intro hp i' j1 j2 c1 c2 h1 h2 heq
    rcases hcell i' j1 c1 h1 with ⟨rfl, rfl, rfl⟩ | h1'
    · rcases hcell _ j2 c2 h2 with ⟨-, rfl, -⟩ | h2'
      · rfl
      · exact absurd heq.symm (hfresh hp j2 c2 h2')
    · rcases hcell i' j2 c2 h2 with ⟨rfl, -, rfl⟩ | h2'
      · exact absurd heq (hfresh hp j1 c1 h1')
      · exact h.ids hp i' j1 j2 c1 c2 h1' h2' heq
  · refine h.marked.grow rfl (by simp [ht]) rfl fun i' j' c hc => ⟨c, ?_, le_rfl⟩
    rw [hget, if_neg, hc]
    rintro ⟨rfl, rfl⟩
    have hold : s.cell i' r.length = r[r.length]? := by simp [cell, hk, hr]
    rw [hold] at hc
    simp at hc

/-- A primary that counts the view-changes `F`. -/
structure Summed (cfg : Cfg) (id : Nat) (F : Nat → Option ViewChange) (s : NVInfo) : Prop where
  tallied : Tallied cfg id s
  primary : cfg.primary s.v = id
  pos : s.v ≠ 0
  vcOf : s.vcOf = F

/-- In the loop of `summarize_reqs(vc)`: `p` are the view-changes that were counted before; the
entries `L` do not count `vc` yet, and the rows `O` have no entry of it. -/
structure Mid (cfg : Cfg) (id : Nat) (F : Nat → Option ViewChange) (p : Nat → Bool)
    (vc : ViewChange) (L : Int → Nat → Prop) (O : Int → Prop) (s : NVInfo) :
      Prop extends Summed cfg id F s where
  reqSum : ∀ j, (s.vcs j).reqSum = Function.update p vc.id true j
  lag : ∀ i j c, L i j → s.cell i j = some c → c.nLe ≤ support cfg F p i c.v c.d
  old : ∀ i j c, O i → s.cell i j = some c → p c.id = true

section Counting

variable {F : Nat → Option ViewChange} {p : Nat → Bool} {vc : ViewChange} {L L' : Int → Nat → Prop}
    {O O' : Int → Prop}

theorem Summed.quiet (h : Summed V.cfg id F s) (hq : Quiet V s t) : Summed V.cfg id F t := by
  refine ⟨hq.tallied h.tallied, ?_, ?_, hq.vcOf.trans h.vcOf⟩
  · rw [hq.v]
    exact h.primary
  · rw [hq.v]
    exact h.pos

theorem Mid.quiet (h : Mid V.cfg id F p vc L O s) (hq : Quiet V s t) :
    Mid V.cfg id F p vc L O t := by
  have hs := hq.sig
  simp only [sig, Sig.mk.injEq] at hs
  obtain ⟨-, hvcs, -, -, -, -, hcells⟩ := hs
  have hcell : ∀ i j c, t.cell i j = some c → ∃ c', s.cell i j = some c' ∧ tally c' = tally c := by
    intro i j c hc
    have := congrFun (congrFun hcells i) j
    rw [hc, Option.map_some] at this
    exact Option.map_eq_some_iff.1 this.symm
  refine ⟨h.toSummed.quiet hq, fun j => ?_, fun i j c hL hc => ?_, fun i j c hO hc => ?_⟩
  · rw [← h.reqSum j]
    exact congrArg Prod.snd (congrFun hvcs j)
  · obtain ⟨c', hc', heq⟩ := hcell i j c hc
    simp only [tally, Tally.mk.injEq] at heq
    obtain ⟨h1, h2, h3, -⟩ := heq
    rw [← h1, ← h2, ← h3]
    exact h.lag i j c' hL hc'
  · obtain ⟨c', hc', heq⟩ := hcell i j c hc
    have heq : c'.id = c.id := congrArg Tally.id heq
    rw [← heq]
    exact h.old i j c' hO hc'

theorem Mid.weaken (h : Mid cfg id F p vc L O s) (hL : ∀ i j, L' i j → L i j)
    (hO : ∀ i, O' i → O i) :
    Mid cfg id F p vc L' O' s :=
  ⟨h.toSummed, h.reqSum, fun i j c hl hc => h.lag i j c (hL i j hl) hc,
    fun i j c ho hc => h.old i j c (hO i ho) hc⟩

/-- The primary counts the view-changes that were summarized. -/
theorem Summed.counted (h : Summed cfg id F s) (j : Nat) :
    s.counted cfg id j = (s.vcs j).reqSum := by
  simp [NVInfo.counted, h.primary]

theorem Mid.counted (h : Mid cfg id F p vc L O s) :
    s.counted cfg id = Function.update p vc.id true := by
  ext1 j
  rw [h.toSummed.counted, h.reqSum]

/-- With the new view-change, the support of a request grows by one if it supports it. -/
theorem Mid.support_eq (h : Mid cfg id F p vc L O s) (hF : F vc.id = some vc) (hp : p vc.id = false)
    (i v : Int) (d : Digest) :
    support cfg s.vcOf (s.counted cfg id) i v d = support cfg F p i v d +
      if supports cfg.P i v d vc then 1 else 0 := by
  rw [h.vcOf, h.counted]
  refine support_insert ?_ hp hF rfl
  exact (h.tallied.filed vc.id vc (by rw [h.vcOf, hF])).2

/-- An entry counts the view-change. -/
theorem Mid.entry (h : Mid V.cfg id F p vc L O s) (hF : F vc.id = some vc) (hp : p vc.id = false)
    {i : Int} {j : Nat} {r : Int × Digest} {cur cur' : ReqSum} (hr : vc.req V.cfg.P i = some r)
    (hc : s.cell i j = some cur) (hL : L i j) (hcur' : countReq V vc i r.1 r.2 cur = some cur') :
    Mid V.cfg id F p vc (fun i' j' => L i' j' ∧ ¬(i' = i ∧ j' = j))
      O (NVInfo.setCell i j cur' s) := by
  have ht := countReq_tally hr hcur'
  have hle : cur.nLe + (if supports V.cfg.P i cur.v cur.d vc then 1 else 0) ≤
      support V.cfg s.vcOf (s.counted V.cfg id) i cur.v cur.d := by
    rw [h.support_eq hF hp]
    exact Nat.add_le_add_right (h.lag i j cur hL hc) _
  constructor
  · exact ⟨h.tallied.setCell hc ht (by omega) hle, h.primary, h.pos, h.vcOf⟩
  · exact h.reqSum
  · rintro i' j' c ⟨hL', hne⟩ hc'
    rw [cell_setCell hc, if_neg hne] at hc'
    exact h.lag i' j' c hL' hc'
  · intro i' j' c hO hc'
    rw [cell_setCell hc] at hc'
    split at hc'
    · rename_i heq
      obtain ⟨rfl, rfl⟩ := heq
      cases hc'
      have hid : cur'.id = cur.id := congrArg Tally.id ht
      rw [hid]
      exact h.old i' j' cur hO hc
    · exact h.old i' j' c hO hc'

theorem sumEntry_mid (h : Mid V.cfg id F p vc L O s) (hF : F vc.id = some vc) (hp : p vc.id = false)
    {i : Int} {j : Nat} {r : Int × Digest} (hr : vc.req V.cfg.P i = some r) (hL : L i j) :
    Ensures (sumEntry V vc i r.1 r.2 j) s
      (fun _ t => Mid V.cfg id F p vc (fun i' j' => L i' j' ∧ ¬(i' = i ∧ j' = j)) O t)
        fun _ => True := by
  refine Reaches.get_bind (Reaches.ofOption_bind trivial
    fun cur hcur => Reaches.ofOption_bind trivial fun cur' hcur' => ?_)
  have h1 := h.entry hF hp hr hcur hL hcur'
  refine Reaches.modify_bind trivial (Ensures.bind (checkComp_calm _ i j) fun _ t ht => ?_)
  exact Reaches.get_bind (Reaches.pure (h1.quiet ht.toQuiet))

/-- An entry for the request of the view-change: it counts one view-change for each entry of a
smaller view. -/
theorem addEntry_mid (h : Mid V.cfg id F p vc L O s) (hF : F vc.id = some vc)
    (hp : p vc.id = false) {i : Int} {r : Int × Digest} (hr : vc.req V.cfg.P i = some r) (hO : O i)
    (hL : ∀ j, ¬L i j) :
    Ensures (addEntry V vc i r.1 r.2) s (fun _ t =>
        Mid V.cfg id F p vc L (fun i' => O i' ∧ i' ≠ i) t) fun _ => True := by
  refine Reaches.get_bind (Reaches.ofOption_bind trivial
    fun k hk => Reaches.ofOption_bind trivial fun row hrow => ?_)
  refine Reaches.ofOption_bind trivial fun cur hcur => ?_
  have ht := searchProofs_tally hcur
  simp only [tally, Tally.mk.injEq] at ht
  obtain ⟨hv, hd, hn, hid⟩ := ht
  have hcell : ∀ j, s.cell i j = row[j]? := by
    intro j
    simp [cell, hk, hrow]
  have hmade : ∀ c ∈ row, p c.id = true ∧ ∃ vc,
    F c.id = some vc ∧ vc.req V.cfg.P i = some (c.v, c.d) := by
    intro c hc
    obtain ⟨j, hj⟩ := List.mem_iff_getElem?.1 hc
    have hc : s.cell i j = some c := by rw [hcell, hj]
    refine ⟨h.old i j c hO hc, ?_⟩
    rw [← h.vcOf]
    exact (h.tallied.made i j c hc).2
  have hids : (row.map (·.id)).Nodup := by
    rw [List.nodup_iff_pairwise_ne, List.pairwise_iff_getElem]
    intro j j' hj hj' hlt heq
    simp only [List.length_map] at hj hj'
    simp only [List.getElem_map] at heq
    have h1 : s.cell i j = some row[j] := by rw [hcell, List.getElem?_eq_getElem hj]
    have h2 : s.cell i j' = some row[j'] := by rw [hcell, List.getElem?_eq_getElem hj']
    exact absurd (h.tallied.ids h.primary i j j' _ _ h1 h2 heq) (by omega)
  have hFn : ∀ j m, F j = some m → j < V.cfg.n := by
    intro j m hm
    exact (h.tallied.filed j m (by rw [h.vcOf, hm])).2
  have hsmaller : (row.filter fun c => c.v < r.1).length ≤ support V.cfg F p i r.1 r.2 :=
    smaller_le hFn hids hmade
  have hself : supports V.cfg.P i r.1 r.2 vc = true := by simp [supports_of_req hr]
  have hpush : Tallied V.cfg id { s with reqs := s.reqs.modify k fun r => r ++ [cur] } := by
    refine h.tallied.push hk hrow ?_ ?_ ?_
    · rw [hv, hd, hn, h.support_eq hF hp, hself, if_pos rfl]
      exact Nat.add_le_add_right hsmaller 1
    · rw [hid, hv, hd, h.counted, h.vcOf]
      exact ⟨by simp, vc, hF, hr⟩
    · intro _ j c hc heq
      have := h.old i j c hO hc
      rw [heq, hid, hp] at this
      cases this
  have hmid : Mid V.cfg id F p vc L (fun i' => O i' ∧ i' ≠ i)
    { s with reqs := s.reqs.modify k fun r => r ++ [cur] } := by
    have hget :=
      cell_modify (t := { s with reqs := s.reqs.modify k fun r => r ++ [cur] }) hk hrow rfl rfl
    refine ⟨⟨hpush, h.primary, h.pos, h.vcOf⟩, h.reqSum,
      fun i' j c hL' hc => ?_, fun i' j c hO' hc => ?_⟩
    · have hne : i' ≠ i := by
        rintro rfl
        exact hL j hL'
      rw [hget, if_neg hne] at hc
      exact h.lag i' j c hL' hc
    · rw [hget, if_neg hO'.2] at hc
      exact h.old i' j c hO'.1 hc
  refine Reaches.modify_bind trivial (Reaches.mono (checkComp_calm _ i row.length)
    fun _ t ht => hmid.quiet ht.toQuiet)

/-- One sequence number: the rows that are left do not count the view-change yet. -/
theorem sumReq_mid {i : Int} {is : List Int}
    (h : Mid V.cfg id F p vc (fun i' _ => i' ∈ i :: is) (· ∈ i :: is) s) (hF : F vc.id = some vc)
    (hp : p vc.id = false) (hi : i ∉ is) :
    Ensures (sumReq V vc i) s
      (fun b t => if b then Summed V.cfg id F t
          else Mid V.cfg id F p vc (fun i' _ => i' ∈ is) (· ∈ is) t) fun _ => True := by
  refine Reaches.get_bind (Reaches.ofOption_bind trivial
    fun k _ => Reaches.ofOption_bind trivial fun row _ => ?_)
  refine Reaches.ofOption_bind trivial fun r hr => ?_
  let L (js : List Nat) (i' : Int) (j' : Nat) : Prop := i' ∈ is ∨ i' = i ∧ j' ∈ js
  have hloop :=
    Reaches.eachUntil (R := fun _ _ => True) (C := fun _ _ => True) (x := sumEntry V vc i r.1 r.2)
    (I := fun js t => js.Nodup ∧ Mid V.cfg id F p vc (L js) (· ∈ i :: is) t)
      (E := Summed V.cfg id F) ?_
    (List.range row.length) s ?_
  · refine Ensures.bind hloop fun done t ht => ?_
    cases done with
    | true => exact Reaches.pure (by simpa using ht)
    | false =>
      have ht : Mid V.cfg id F p vc (L []) (· ∈ i :: is) t := by simpa using ht
      have ht : Mid V.cfg id F p vc (fun i' _ => i' ∈ is) (· ∈ i :: is) t :=
        ht.weaken (fun i' j hl => .inl hl) fun _ ho => ho
      refine Ensures.bind (Q := fun _ u => Mid V.cfg id F p vc (fun i' _ => i' ∈ is) (· ∈ is) u)
        (Reaches.when (fun _ => ?_) fun _ => ?_) fun _ u hu => Reaches.pure (by simpa using hu)
      · refine Reaches.mono (addEntry_mid ht hF hp hr (by simp) fun _ hmem => hi hmem)
          fun _ u hu => ?_
        refine hu.weaken (fun _ _ hl => hl) fun i' ho => ⟨by simp [ho], ?_⟩
        rintro rfl
        exact hi ho
      · exact ht.weaken (fun _ _ hl => hl) fun i' ho => by simp [ho]
  · rintro j js t ⟨hnodup, ht⟩
    obtain ⟨hj, hjs⟩ := List.nodup_cons.1 hnodup
    refine Reaches.mono (sumEntry_mid ht hF hp hr (.inr ⟨rfl, by simp⟩)) fun b u hu => ?_
    cases b with
    | true => simpa using hu.toSummed
    | false =>
      refine ⟨hjs, hu.weaken ?_ fun _ ho => ho⟩
      rintro i' j' (hmem | ⟨rfl, hmem⟩)
      · refine ⟨.inl hmem, ?_⟩
        rintro ⟨rfl, -⟩
        exact hi hmem
      · refine ⟨.inr ⟨rfl, by simp [hmem]⟩, ?_⟩
        rintro ⟨-, rfl⟩
        exact hj hmem
  · refine ⟨List.nodup_range, h.weaken ?_ fun _ ho => ho⟩
    rintro i' j (hmem | ⟨rfl, -⟩)
    · simp [hmem]
    · simp

theorem nodup_intRange (lo hi : Int) : (intRange lo hi).Nodup := by
  refine List.Nodup.map (fun a b hab => ?_) List.nodup_range
  have hab : lo + (a : Int) = lo + b := hab
  omega

theorem Tallied.mark (h : Tallied cfg id s) (j : Nat) :
    Tallied cfg id { s with vcs := Function.update s.vcs j { s.vcs j with reqSum := true } } := by
  set t : NVInfo :=
    { s with vcs := Function.update s.vcs j { s.vcs j with reqSum := true } } with ht
  have hvc : t.vcOf = s.vcOf := by
    ext i : 1
    by_cases hi : i = j
    · subst hi
      simp [ht, NVInfo.vcOf]
    · simp [ht, NVInfo.vcOf, hi]
  have hco : ∀ i, s.counted cfg id i = true → t.counted cfg id i = true := by
    intro i
    by_cases hi : i = j
    · subst hi
      simp [NVInfo.counted, ht]
    · simp [NVInfo.counted, ht, hi]
  constructor
  · rw [hvc]
    exact h.filed
  · exact h.zero
  · exact h.empty
  · exact h.early
  · intro i k c hc
    refine (h.le i k c hc).trans (support_mono fun x m hx hm => ⟨hco x hx, ?_⟩)
    rw [hvc]
    exact hm
  · intro i k c hc
    rw [hvc]
    exact ⟨hco _ (h.made i k c hc).1, (h.made i k c hc).2⟩
  · exact h.ids
  · exact h.marked

/-- **`summarize_reqs`** -/
theorem summarizeReqs_summed (h : Summed V.cfg id F s) (hF : F vc.id = some vc) :
    Ensures (summarizeReqs V vc) s (fun _ t => Summed V.cfg id F t) fun _ => True := by
  refine Reaches.get_bind (Reaches.assert_bind trivial fun ha => Reaches.modify_bind trivial ?_)
  have hp : (s.vcs vc.id).reqSum = false := by
    have := (Bool.and_eq_true_iff.1 (Bool.and_eq_true_iff.1 ha).1).2
    simpa using this
  set t : NVInfo :=
    { s with vcs := Function.update s.vcs vc.id { s.vcs vc.id with reqSum := true } } with ht
  have hvc : t.vcOf = F := by
    rw [← h.vcOf]
    ext i : 1
    by_cases hi : i = vc.id
    · simp [ht, NVInfo.vcOf, hi]
    · simp [ht, NVInfo.vcOf, hi]
  have hmid : Mid V.cfg id F (fun j => (s.vcs j).reqSum)
    vc (fun _ _ => True) (fun _ => True) t := by
    refine ⟨⟨h.tallied.mark vc.id, h.primary, h.pos, hvc⟩,
      fun j => ?_, fun i j c _ hc => ?_, fun i j c _ hc => ?_⟩
    · by_cases hj : j = vc.id
      · simp [ht, hj]
      · simp [ht, hj]
    · have hle := h.tallied.le i j c hc
      rw [h.vcOf] at hle
      exact hle.trans (support_mono fun x m hx hm => ⟨by rw [← h.counted]; exact hx, hm⟩)
    · have := (h.tallied.made i j c hc).1
      rw [h.counted] at this
      exact this
  refine Ensures.bind (Q := fun _ u => Summed V.cfg id F u) ?_ fun _ u hu => Reaches.pure hu
  refine Reaches.mono (Reaches.eachUntil (E := Summed V.cfg id F)
    (I := fun is u => is.Nodup ∧
      Mid V.cfg id F (fun j => (s.vcs j).reqSum) vc (fun i _ => i ∈ is) (· ∈ is) u) ?_ _ t ?_) ?_
  · rintro i is u ⟨hnodup, hu⟩
    obtain ⟨hi, his⟩ := List.nodup_cons.1 hnodup
    refine Reaches.mono (sumReq_mid hu hF hp hi) fun b w hw => ?_
    cases b with
    | true => simpa using hw
    | false => exact ⟨his, by simpa using hw⟩
  · exact ⟨nodup_intRange _ _, hmid.weaken (fun _ _ _ => trivial) fun _ _ => trivial⟩
  · intro b u hu
    cases b with
    | true => simpa using hu
    | false => exact hu.2.toSummed

variable (V F) in
/-- The program keeps what a primary has counted. -/
abbrev Counts {α : Type} (x : Prog NVInfo α) : Prop := Holds (Summed V.cfg V.id F) (fun _ => True) x

theorem counts_of_calm {α : Type} {x : Prog NVInfo α} (hx : ∀ s, Calm V x s) : Counts V F x := by
  intro s hs
  exact Reaches.mono (hx s) fun _ t ht => hs.quiet ht.toQuiet

theorem sumVC_counts (i : Nat) : Counts V F (sumVC V i) := by
  intro s hs
  refine Reaches.get_bind (Reaches.ite (fun _ => ?_) fun _ => Reaches.pure hs)
  refine Reaches.ofOption_bind trivial fun vc hvc =>
    Ensures.bind (summarizeReqs_summed hs ?_) fun _ t ht => ?_
  · have hid := (hs.tallied.filed i vc hvc).1
    rw [hid, ← hs.vcOf]
    exact hvc
  · exact Reaches.get_bind (Reaches.pure ht)

/-- There are no entries. -/
theorem Tallied.blank (h : Tallied cfg id s) (hvcs : t.vcs = s.vcs) (hz : t.v = 0 → t.reqs = [])
    (he : cfg.primary t.v = id → t.chosenCkpt = none → t.reqs = [])
    (hlt : cfg.primary t.v ≠ id → t.vcCur < t.vcTarget → t.reqs = [])
    (hr : ∀ (k : Nat) r, t.reqs[k]? = some r → r = [])
    (hc : ∀ (k : Nat) o, t.reqs ≠ [] → t.compReqs[k]? = some o → o = none) :
    Tallied cfg id t := by
  have hcell : ∀ i j c, t.cell i j ≠ some c := by
    intro i j c hc
    obtain ⟨k, r, -, hk, hj⟩ := cell_eq_some.1 hc
    rw [hr k r hk] at hj
    cases hj
  constructor
  · have hvc : t.vcOf = s.vcOf := by
      ext i : 1
      simp [NVInfo.vcOf, hvcs]
    rw [hvc]
    exact h.filed
  · exact hz
  · exact he
  · exact hlt
  · exact fun i j c hc => absurd hc (hcell i j c)
  · exact fun i j c hc => absurd hc (hcell i j c)
  · exact fun _ i j _ c _ hc => absurd hc (hcell i j c)
  · intro i j hij
    obtain ⟨k, hrow, hk⟩ := Option.bind_eq_some_iff.1 hij
    have hne : t.reqs ≠ [] := by
      intro hnil
      simpa [hnil] using (row_eq hrow).2.2
    cases hc k _ hne hk

/-- The rows of a list of empty ones. -/
theorem replicate_nil {n k : Nat} {r : List ReqSum}
    (h : (List.replicate n ([] : List ReqSum))[k]? = some r) : r = [] := by
  rw [List.getElem?_replicate] at h
  split at h <;> cases h
  rfl

theorem replicate_none {n k : Nat} {o : Option Nat}
    (h : (List.replicate n (none : Option Nat))[k]? = some o) : o = none := by
  rw [List.getElem?_replicate] at h
  split at h <;> cases h
  rfl

theorem chooseFirst_counts (index : Nat) (cur : CkptSum) (hs : Summed V.cfg V.id F s)
    (hn : s.chosenCkpt = none) :
    Ensures (chooseFirst V index cur) s (fun _ t => Summed V.cfg V.id F t) fun _ => True := by
  refine Reaches.assert_bind trivial fun _ => Reaches.modify_bind trivial ?_
  refine Holds.eachUntil sumVC_counts _ _ ⟨?_, hs.primary, hs.pos, hs.vcOf⟩
  have hnil := hs.tallied.empty hs.primary hn
  refine hs.tallied.blank rfl (fun hz => absurd hz hs.pos)
    (fun _ hnone => ?_) (fun hp => absurd hs.primary hp) (fun k r hk => ?_)
    fun k o _ hk => replicate_none hk
  · cases hnone
  · simp only [hnil, List.nil_append] at hk
    exact replicate_nil hk

theorem chooseLater_counts (index : Nat) (cur : CkptSum) : Counts V F (chooseLater index cur) := by
  intro s hs
  refine Reaches.get_bind (Reaches.ofOption_bind trivial
    fun old hold => Reaches.when (fun _ => ?_) fun _ => hs)
  obtain ⟨k, hk, -⟩ := Option.bind_eq_some_iff.1 hold
  refine Reaches.ofOption_bind trivial fun n _ =>
    Reaches.modify trivial (hs.quiet (quiet_of_eq ?_ rfl rfl rfl fun _ => rfl))
  simp [sig, hk, cell, row]

theorem chooseCkpt_counts (index : Nat) : Counts V F (chooseCkpt V index) := by
  intro s hs
  refine Reaches.get_bind (Reaches.assert_bind trivial
    fun _ => Reaches.ofOption_bind trivial fun cur _ => ?_)
  refine Reaches.assert_bind trivial fun _ => ?_
  have hfinish : Counts V F (finishIf (makeNewView V)) :=
    counts_of_calm (finishIf_calm makeNewView_calm)
  refine Reaches.ite (fun hn => ?_) fun _ => ?_
  · refine Ensures.bind (chooseFirst_counts index cur hs (by simpa using hn)) fun done t ht => ?_
    exact Reaches.ite (fun _ => Reaches.pure ht) fun _ => hfinish t ht
  · exact Holds.bind (chooseLater_counts index cur) (fun _ => hfinish) s hs

theorem summarize_counts (hF : F vc.id = some vc) : Counts V F (summarize V vc) := by
  have hckpts : ∀ (ck : List CkptSum) t, Quiet V t { t with ckpts := ck } := fun ck t =>
    quiet_of_eq rfl rfl rfl rfl fun _ => rfl
  refine Holds.get_bind fun s => Holds.assert_bind (fun _ _ => trivial)
    fun _ => Holds.ofOption_bind (fun _ _ => trivial) fun c => ?_
  refine Holds.bind (Holds.each (fun i => ?_) _)
    fun _ => Holds.bind (Holds.when fun _ => ?_) fun _ => ?_
  · refine Holds.get_bind fun t => Holds.ofOption_bind (fun _ _ => trivial) fun cur => ?_
    refine Holds.ofOption_bind (fun _ _ => trivial) fun cur' => ?_
    exact Holds.modify_bind (fun u hu => hu.quiet (hckpts _ u)) (Holds.when
      fun _ => chooseCkpt_counts i)
  · refine Holds.get_bind fun t => Holds.ofOption_bind (fun _ _ => trivial) fun k => ?_
    exact Holds.modify_bind (fun u hu => hu.quiet (hckpts _ u)) (Holds.when
      fun _ => chooseCkpt_counts _)
  · refine Holds.get_bind fun t => Holds.when fun _ =>
      Holds.bind (fun u hu => summarizeReqs_summed hu hF) fun _ => ?_
    exact Holds.modify fun u hu => hu.quiet (quiet_of_eq rfl rfl rfl rfl fun _ => rfl)

theorem addToNewView_counts (hF : F vc.id = some vc) : Counts V F (addToNewView V vc) := by
  intro s hs
  refine Reaches.get_bind (Reaches.ofOption_bind trivial fun nv _ => Reaches.modify_bind trivial ?_)
  refine summarize_counts hF _ (hs.quiet (quiet_of_eq rfl rfl rfl rfl fun hp => ?_))
  simp [NVInfo.isPrimary, hs.primary] at hp

end Counting

/-! ## The backup -/

/-- `vc->req(i, dd) <= v` -/
def notLater (P : Params) (i v : Int) (vc : ViewChange) : Bool :=
  (vc.req P i).any fun r => decide (r.1 ≤ v)

/-- The stored view-changes that `check_new_view` counts for an entry of view `v`. -/
def noLater (cfg : Cfg) (s : NVInfo) (i v : Int) : Nat :=
  (List.range cfg.n).countP fun j => (s.vcOf j).any (notLater cfg.P i v)

/-- `check_new_view` does not look at the digest. -/
theorem reqEvidence_fold {cur' : ReqSum} {i : Int} (l : List Nat) {c : ReqSum}
    (hc : l.foldlM (fun cur j =>
      match s.vcOf j with
      | some vc => do
        let cur ← getProofs V cur vc i
        let r ← vc.req V.cfg.P i
        some (if r.1 ≤ cur.v then { cur with nLe := cur.nLe + 1 } else cur)
      | none => some cur) c = some cur') :
    tally cur' = { tally c with nLe := c.nLe +
                                  l.countP fun j => (s.vcOf j).any (notLater V.cfg.P i c.v) } := by
  induction l generalizing c with
  | nil =>
    cases hc
    rfl
  | cons j l ih =>
    simp only [List.foldlM_cons, Option.bind_eq_bind, Option.bind_eq_some_iff] at hc
    obtain ⟨c', hc', hl⟩ := hc
    have hl := ih hl
    rw [List.countP_cons]
    split at hc'
    · rename_i vc hvc
      simp only [Option.bind_eq_some_iff] at hc'
      obtain ⟨c1, h1, r, hr, heq⟩ := hc'
      have h1 := getProofs_tally h1
      simp only [tally, Tally.mk.injEq] at h1
      obtain ⟨hv, hd, hn, hid⟩ := h1
      cases heq
      by_cases hle : r.1 ≤ c.v
      · simp only [hv, hle, if_true] at hl
        rw [hl]
        simp [tally, hvc, notLater, hr, hle, hd, hn, hid]
        omega
      · simp only [hv, hle, if_false] at hl
        rw [hl]
        simp [tally, hvc, notLater, hr, hle, hv, hd, hn, hid]
    · rename_i hvc
      cases hc'
      simp [hl, hvc]

theorem reqEvidence_tally {cur cur' : ReqSum} {i : Int} (h : reqEvidence V s i cur = some cur') :
    tally cur' = { tally cur with nLe := cur.nLe + noLater V.cfg s i cur.v } := reqEvidence_fold _ h

theorem notLater_of_supports {i v : Int} {d : Digest} {j : Nat}
    (h : (true && (s.vcOf j).any (supports cfg.P i v d)) = true) :
    (s.vcOf j).any (notLater cfg.P i v) = true := by
  rw [Bool.true_and] at h
  obtain ⟨vc, hvc, hs⟩ := (Option.any_eq_true _ _).1 h
  obtain ⟨r, hr, hrv⟩ := supports_req hs
  have hle : r.1 ≤ v := by
    rcases hrv with hlt | heq
    · omega
    · omega
  simp [hvc, notLater, hr, hle]

theorem agreeOn_iff {i v : Int} {d : Digest} : s.agreeOn cfg i v d = true ↔
    ∀ j vc r, j < cfg.n → s.vcOf j = some vc → vc.req cfg.P i = some r → r.1 = v → r.2 = d := by
  simp only [agreeOn, List.all_eq_true, List.mem_range, Option.all_eq_true, decide_eq_true_eq]
  constructor
  · intro h j vc r hj hvc hr
    exact h j hj vc hvc r hr
  · intro h j hj vc hvc r hr
    exact h j vc r hj hvc hr

/-- **The backup's count is right** exactly where no view-change prepared another request in the
same view. -/
theorem noLater_eq_iff (i v : Int) (d : Digest) :
    s.noLater cfg i v = s.supporters cfg i v d ↔ s.agreeOn cfg i v d = true := by
  rw [agreeOn_iff]
  constructor
  · intro heq j vc r hj hvc hr hv
    -- the view-changes that support the request are among those that are counted, and as many
    have hsub :
      ((List.range cfg.n).filter fun j => true && (s.vcOf j).any (supports cfg.P i v d)).Sublist
        ((List.range cfg.n).filter fun j => (s.vcOf j).any (notLater cfg.P i v)) := by
      exact List.monotone_filter_right _ fun j hj => notLater_of_supports hj
    have hlist := hsub.eq_of_length (by
      rw [← List.countP_eq_length_filter, ← List.countP_eq_length_filter]
      exact heq.symm)
    have hmem : j ∈ (List.range cfg.n).filter fun j =>
      true && (s.vcOf j).any (supports cfg.P i v d) := by
      rw [hlist]
      simp [hj, hvc, notLater, hr, hv]
    have hs : supports cfg.P i v d vc = true := by
      simpa [hvc] using (List.mem_filter.1 hmem).2
    rw [supports_of_req hr] at hs
    have hs : r.1 < v ∨ r.1 = v ∧ r.2 = d := by simpa using hs
    rcases hs with hlt | heq
    · omega
    · exact heq.2
  · intro hagree
    refine Nat.le_antisymm (List.countP_mono_left fun j hj hc => ?_)
      (List.countP_mono_left fun j _ hj => notLater_of_supports hj)
    obtain ⟨vc, hvc, hany⟩ := (Option.any_eq_true _ _).1 hc
    obtain ⟨r, hr, hle⟩ := (Option.any_eq_true _ _).1 hany
    have hle : r.1 ≤ v := by simpa using hle
    have hsup : supports cfg.P i v d vc = true := by
      rw [supports_of_req hr]
      rcases Int.lt_or_eq_of_le hle with hlt | heq
      · simp [hlt]
      · simp [heq, hagree j vc r (List.mem_range.1 hj) hvc hr heq]
    simp [hvc, hsup]

/-- A backup that checks the message `nv` against the view-changes `F`. -/
structure Checked (V : NVEnv) (F : Nat → Option ViewChange) (nv : Option NewView)
    (s : NVInfo) : Prop where
  tallied : Tallied V.cfg V.id s
  backup : s.isPrimary V = false
  vcOf : s.vcOf = F
  nv : s.nv = nv

section Checking

variable {F : Nat → Option ViewChange} {nv : Option NewView}

theorem Checked.quiet (h : Checked V F nv s) (hq : Quiet V s t) : Checked V F nv t := by
  refine ⟨hq.tallied h.tallied, ?_, hq.vcOf.trans h.vcOf, (hq.nv h.backup).trans h.nv⟩
  rw [NVInfo.isPrimary, hq.v]
  exact h.backup

/-- The backup's entries count all view-changes. -/
theorem counted_backup (h : s.isPrimary V = false) (j : Nat) : s.counted V.cfg V.id j = true := by
  have hne : (V.cfg.primary s.v == V.id) = false := h
  simp [NVInfo.counted, bne, hne]

theorem checkReq_checked (h : Checked V F nv s) {i : Int} (ha : s.agreeAt V.cfg i = true) :
    Ensures (checkReq V i) s (fun _ t => Checked V F nv t) fun _ => True := by
  refine Reaches.get_bind (Reaches.ofOption_bind trivial
    fun vc hvc => Reaches.ite (fun _ => Reaches.pure h) fun _ => ?_)
  refine Reaches.ofOption_bind trivial fun k hk => Reaches.ofOption_bind trivial fun q hq => ?_
  refine Reaches.ofOption_bind trivial fun cur hcur => ?_
  have ht := reqEvidence_tally hcur
  simp only [tally, Tally.mk.injEq] at ht
  obtain ⟨hv, hd, hn, hid⟩ := ht
  have hagree : s.agreeOn V.cfg i q.1 q.2 = true := by
    simpa [agreeAt, hvc, hq] using ha
  obtain ⟨r, hr⟩ : ∃ r, s.reqs[k]? = some r := by
    obtain ⟨-, -, hlt⟩ := row_eq hk
    exact ⟨_, List.getElem?_eq_getElem hlt⟩
  have hstored : s.vcOf vc.id = some vc := by
    simp only [pickedVC, Option.bind_eq_bind, Option.bind_eq_some_iff] at hvc
    obtain ⟨m, -, j, -, hj⟩ := hvc
    split at hj
    · rw [(h.tallied.filed _ _ hj).1]
      exact hj
    · cases hj
  have hpush : Tallied V.cfg V.id { s with reqs := s.reqs.modify k fun r => r ++ [cur] } := by
    refine h.tallied.push hk hr ?_ ?_ ?_
    · rw [hv, hd, hn, Nat.zero_add, (noLater_eq_iff i q.1 q.2).2 hagree]
      exact support_mono fun j m _ hm => ⟨counted_backup h.backup j, hm⟩
    · rw [hid, hv, hd]
      exact ⟨counted_backup h.backup _, vc, hstored, hq⟩
    · intro hp
      have := h.backup
      simp [NVInfo.isPrimary, hp] at this
  have hc : Checked V F nv { s with reqs := s.reqs.modify k fun r => r ++ [cur] } :=
    ⟨hpush, h.backup, h.vcOf, h.nv⟩
  refine Reaches.modify_bind trivial (Reaches.ite (fun _ => ?_) fun _ => Reaches.pure hc)
  exact Ensures.bind (checkComp_calm _ i 0) fun _ t ht => Reaches.pure (hc.quiet ht.toQuiet)

/-- A backup without rows. -/
theorem Checked.noRows (h : Checked V F nv s) (hvcs : t.vcs = s.vcs) (hv : t.v = s.v)
    (hnv : t.nv = s.nv) (hr : t.reqs = []) :
    Checked V F nv t := by
  have hb : t.isPrimary V = false := by
    rw [NVInfo.isPrimary, hv]
    exact h.backup
  refine ⟨h.tallied.blank hvcs (fun _ => hr) (fun _ _ => hr) (fun _ _ => hr) (fun k r hk => ?_)
    fun k o hne => absurd hr hne, hb, ?_,
    hnv.trans h.nv⟩
  · simp [hr] at hk
  · rw [← h.vcOf]
    ext j : 1
    simp [NVInfo.vcOf, hvcs]

theorem checkReqs_checked (h : Checked V F nv s) (hr : s.reqs = []) (hz : s.v ≠ 0)
    (hlt : s.vcTarget ≤ s.vcCur) {m : NewView} (hb : s.base = m.min + 1) (hnv : s.nv = some m)
    (ha : s.agree V.cfg = true) :
    Ensures (checkReqs V m) s (fun _ t => Checked V F nv t) fun _ => True := by
  refine Reaches.modify_bind trivial (Reaches.get_bind ?_)
  set t : NVInfo := { s with
    reqs := s.reqs ++ List.replicate (s.max - s.min - 1).toNat []
    compReqs := List.replicate (s.compReqs.length + (s.max - s.min - 1).toNat) none } with ht
  have hcheck : Checked V F nv t := by
    have hne : V.cfg.primary s.v ≠ V.id := by
      have := h.backup
      simpa [NVInfo.isPrimary] using this
    refine ⟨h.tallied.blank rfl (fun h0 => absurd h0 hz)
      (fun hp => absurd hp hne) (fun _ hl => ?_) (fun k r hk => ?_)
      fun k o _ hk => replicate_none hk, h.backup, h.vcOf, h.nv⟩
    · have : s.vcCur < s.vcTarget := hl
      omega
    · simp only [ht, hr, List.nil_append] at hk
      exact replicate_nil hk
  have hagree : ∀ i ∈ intRange t.base m.max, s.agreeAt V.cfg i = true := by
    intro i hi
    simp only [agree, hnv, Option.all_some, List.all_eq_true] at ha
    refine ha i ?_
    rw [← hb]
    exact hi
  refine Ensures.bind (Q := fun _ u => Checked V F nv u) ?_ fun _ u hu => Reaches.pure hu
  refine Reaches.mono (Reaches.eachUntil (E := Checked V F nv)
    (I := fun is u => Checked V F nv u ∧ ∀ i ∈ is, s.agreeAt V.cfg i = true)
      ?_ _ t ⟨hcheck, hagree⟩) ?_
  · rintro i is u ⟨hu, hall⟩
    have hsame : u.agreeAt V.cfg i = s.agreeAt V.cfg i := by
      have hvc : u.vcOf = s.vcOf := hu.vcOf.trans h.vcOf.symm
      have hmsg : u.nv = s.nv := hu.nv.trans h.nv.symm
      simp [agreeAt, agreeOn, pickedVC, hvc, hmsg]
    refine Reaches.mono (checkReq_checked hu (hsame.trans (hall i (by simp)))) fun b w hw => ?_
    cases b with
    | true => exact hw
    | false => exact ⟨hw, fun i' hi' => hall i' (by simp [hi'])⟩
  · intro b u hu
    cases b with
    | true => exact hu
    | false => exact hu.1

theorem checkNewView_checked (h : Checked V F nv s) (hr : s.reqs = []) (hz : s.v ≠ 0)
    (hlt : s.vcTarget ≤ s.vcCur) (ha : s.agree V.cfg = true) :
    Ensures (checkNewView V) s (fun _ t => Checked V F nv t) fun _ => True := by
  refine Reaches.get_bind (Reaches.assert_bind trivial
    fun _ => Reaches.ofOption_bind trivial fun m hm => ?_)
  refine Reaches.ofOption_bind trivial fun cid _ => Reaches.ofOption_bind trivial
    fun vc _ => Reaches.modify_bind trivial ?_
  have h1 : Checked V F nv { s with min := vc.ls } := h.noRows rfl rfl rfl hr
  refine Reaches.ite (fun _ => Reaches.pure h1) fun hmin => Reaches.modify_bind trivial ?_
  have hmin : vc.ls = m.min := by simpa using hmin
  have h2 : Checked V F nv { s with min := vc.ls, base := vc.ls + 1 } := h.noRows rfl rfl rfl hr
  refine Reaches.ofOption_bind trivial fun c _ => ?_
  cases c with
  | none => exact Reaches.pure h2
  | some d =>
    refine Reaches.get_bind (Reaches.ofOption_bind trivial
      fun e _ => Reaches.ite (fun _ => Reaches.pure h2) fun _ => ?_)
    have h3 : Checked V F nv { s with min := vc.ls, base := vc.ls + 1, chosenCkpt := some 0 } :=
      h.noRows rfl rfl rfl hr
    refine Reaches.modify_bind trivial
      (Reaches.get_bind (Reaches.ite (fun _ => Reaches.pure h3) fun _ => ?_))
    have h4 : Checked V F nv { s with min := vc.ls, base := vc.ls + 1,
                                      chosenCkpt := some 0, max := m.max } :=
      h.noRows rfl rfl rfl hr
    refine Reaches.modify_bind trivial (Reaches.ite (fun _ => ?_) fun _ => ?_)
    · have h5 : Checked V F nv
          { s with min := vc.ls, base := vc.ls + 1, chosenCkpt := some 0,
                   max := m.max, isComplete := true } :=
        h.noRows rfl rfl rfl hr
      refine Reaches.modify_bind trivial
        (Reaches.get_bind (Reaches.ofOption_bind trivial fun ks _ => ?_))
      exact Reaches.modify_bind trivial (Reaches.pure (h5.noRows rfl rfl rfl hr))
    · exact checkReqs_checked h4 hr hz hlt (by rw [hmin]) hm ha

end Checking

/-! ## Messages -/

/-- Storing a view-change only adds support. -/
theorem Tallied.store (h : Tallied cfg id s) (m : ViewChange) (hm : m.id < cfg.n)
    (hn : s.vcOf m.id = none) :
    Tallied cfg id (s.store m) := by
  have hmono : ∀ j x, s.vcOf j = some x → (s.store m).vcOf j = some x := by
    intro j x hx
    have hne : j ≠ m.id := by
      rintro rfl
      rw [hn] at hx
      cases hx
    simpa [NVInfo.vcOf, NVInfo.store, hne] using hx
  have hco : (s.store m).counted cfg id = s.counted cfg id := by
    ext1 j
    by_cases hj : j = m.id
    · simp [NVInfo.counted, NVInfo.store, hj]
    · simp [NVInfo.counted, NVInfo.store, hj]
  constructor
  · intro j x hx
    by_cases hj : j = m.id
    · subst hj
      have hx : m = x := by simpa [NVInfo.vcOf, NVInfo.store] using hx
      subst hx
      exact ⟨rfl, hm⟩
    · exact h.filed j x (by simpa [NVInfo.vcOf, NVInfo.store, hj] using hx)
  · exact h.zero
  · exact h.empty
  · intro hp hlt
    have hlt : s.vcCur + 1 < s.vcTarget := hlt
    exact h.early hp (by omega)
  · intro i j c hc
    rw [hco]
    exact (h.le i j c hc).trans (support_mono fun x y hx hy => ⟨hx, hmono x y hy⟩)
  · intro i j c hc
    obtain ⟨h1, vc, h2, h3⟩ := h.made i j c hc
    rw [hco]
    exact ⟨h1, vc, hmono _ _ h2, h3⟩
  · exact h.ids
  · exact h.marked

theorem isPrimary_iff : s.isPrimary V = true ↔ V.cfg.primary s.v = V.id := by
  simp [NVInfo.isPrimary]

/-- **`add(View_change*)`** -/
theorem addViewChange_tallied (h : Tallied V.cfg V.id s) (m : ViewChange) (verified digestOk : Bool)
    (hpos : m.v = s.v → s.v ≠ 0)
    (ha : s.isPrimary V = false → s.vcCur + 1 = s.vcTarget → (s.store m).agree V.cfg = true) :
    Ensures (NVInfo.addViewChange V m verified digestOk) s (fun _ t => Tallied V.cfg V.id t)
      fun _ => True := by
  refine Reaches.get_bind (Reaches.assert_bind trivial
    fun hm => Reaches.ite (fun _ => Reaches.pure h) fun hnew => ?_)
  obtain ⟨hv, hid⟩ : m.v = s.v ∧ m.id < V.cfg.n := by simpa using hm
  obtain ⟨hnone, -⟩ : s.vcOf m.id = none ∧ s.isComplete = false := by simpa using hnew
  refine Reaches.ofOption_bind trivial fun named _ =>
    Reaches.ite (fun _ => Reaches.pure h) fun _ => ?_
  refine Reaches.ite (fun _ => Reaches.pure h) fun _ => Reaches.modify_bind trivial ?_
  have hst := h.store m hid hnone
  refine Ensures.bind (Q := fun _ t => Tallied V.cfg V.id t) ?_ fun _ t ht => Reaches.pure ht
  refine Reaches.get_bind (Reaches.ite (fun hp => Reaches.when (fun _ => ?_) fun _ => hst) fun hp =>
    Reaches.when (fun hc => ?_) fun _ => hst)
  · have hs : Summed V.cfg V.id (s.store m).vcOf (s.store m) :=
      ⟨hst, isPrimary_iff.1 hp, hpos hv, rfl⟩
    refine Reaches.mono (addToNewView_counts ?_ _ hs) fun _ t ht => ht.tallied
    simp [NVInfo.vcOf, NVInfo.store]
  · have hb : s.isPrimary V = false := Bool.eq_false_iff.2 hp
    have hc : s.vcCur + 1 = s.vcTarget := by simpa using hc
    have hr : s.reqs = [] := h.early (fun heq => hp (isPrimary_iff.2 heq)) (by omega)
    have hchecked : Checked V (s.store m).vcOf s.nv (s.store m) := ⟨hst, hb, rfl, rfl⟩
    refine Ensures.bind (checkNewView_checked hchecked hr (hpos hv) hc.ge (ha hb hc))
      fun _ t ht => ?_
    exact Reaches.pure ht.tallied

/-- **`add(View_change_ack*)`** -/
theorem addAck_tallied (h : Tallied V.cfg V.id s) (m : ViewChangeAck) (hpos : m.v = s.v → s.v ≠ 0) :
    Ensures (NVInfo.addAck V m) s (fun _ t => Tallied V.cfg V.id t) fun _ => True := by
  refine Reaches.get_bind (Reaches.assert_bind trivial
    fun hm => Reaches.ite (fun _ => Reaches.pure h) fun _ => ?_)
  have hv : m.v = s.v := by simpa using hm
  refine Reaches.ofOption_bind trivial fun nv _ => ?_
  cases ackDigest V s nv m.vcid with
  | none => exact Reaches.pure h
  | some d =>
    refine Ensures.bind (Q := fun _ t => Tallied V.cfg V.id t) (Reaches.when (fun _ => ?_)
      fun _ => h) fun _ t ht => Reaches.pure ht
    set u : NVInfo :=
      { s with vcs := Function.update s.vcs m.vcid (VCInfo.ack (s.vcs m.vcid) m.id) } with hu
    have hq : Quiet V s u := by
      refine quiet_of_eq ?_ rfl rfl rfl fun _ => rfl
      simp only [sig, Sig.mk.injEq, hu, true_and]
      refine ⟨?_, rfl⟩
      ext1 j
      by_cases hj : j = m.vcid
      · simp [hj, VCInfo.ack]
      · simp [hj]
    have hut := hq.tallied h
    refine Reaches.modify_bind trivial (Reaches.get_bind (Reaches.when (fun hc => ?_) fun _ => hut))
    refine Reaches.ofOption_bind trivial fun vc hvc => ?_
    have hp : u.isPrimary V = true := (Bool.and_eq_true_iff.1 hc).2
    have hs : Summed V.cfg V.id u.vcOf u := ⟨hut, isPrimary_iff.1 hp, hpos hv, rfl⟩
    refine Reaches.mono (addToNewView_counts ?_ _ hs) fun _ t ht => ht.tallied
    rw [(hut.filed _ _ hvc).1]
    exact hvc

theorem tallied_clear (s : NVInfo) : Tallied cfg id s.clear := by
  have hcell : ∀ i j, s.clear.cell i j = none := by
    intro i j
    simp [cell, row, NVInfo.clear, NVInfo.new]
  constructor
  · intro j m hm
    simp [NVInfo.vcOf, NVInfo.clear, NVInfo.new, noVC] at hm
  · exact fun _ => rfl
  · exact fun _ _ => rfl
  · exact fun _ _ => rfl
  · intro i j c hc
    simp [hcell] at hc
  · intro i j c hc
    simp [hcell] at hc
  · intro _ i j _ c _ hc
    simp [hcell] at hc
  · intro i j hij
    simp [comp, row, NVInfo.clear, NVInfo.new] at hij

/-- A message is added where there are no rows. -/
theorem Tallied.start (h : Tallied cfg id s) (hr : s.reqs = []) (m : NewView) (k : Nat) :
    Tallied cfg id { s with v := m.v, nv := some m, vcTarget := k } := by
  refine h.blank rfl (fun _ => hr) (fun _ _ => hr) (fun _ _ => hr) (fun k r hk => ?_)
    fun k o hne => absurd hr hne
  have hk : s.reqs[k]? = some r := hk
  simp [hr] at hk

theorem addNewView_tallied (h : Tallied V.cfg V.id s) (m : NewView) :
    Ensures (NVInfo.addNewView V m) s
      (fun _ t => Tallied V.cfg V.id t ∧ (s.v < m.v → t.v = m.v)) fun _ => True := by
  refine Reaches.get_bind (Reaches.ite (fun hle => Reaches.pure ⟨h, fun hlt => ?_⟩) fun _ => ?_)
  · omega
  · refine Ensures.bind (Q := fun _ t => Tallied V.cfg V.id t ∧ t.reqs = [])
      (Reaches.when (fun _ => ?_) fun hz => ?_) ?_
    · exact Reaches.modify trivial ⟨tallied_clear s, rfl⟩
    · have hz : s.v = 0 := by simpa using hz
      exact ⟨h, h.zero hz⟩
    · rintro _ t ⟨ht, hr⟩
      exact Reaches.modify_bind trivial (Reaches.pure ⟨ht.start hr m _, fun _ => rfl⟩)

/-- **`mark_stale`**: the primary starts again with its own view-change. -/
theorem markStale_tallied (h : Tallied V.cfg V.id s) :
    Ensures (NVInfo.markStale V) s (fun _ t => Tallied V.cfg V.id t) fun _ => True := by
  refine Reaches.get_bind (Reaches.ite (fun _ => Reaches.pure h)
    fun _ => Reaches.modify_bind trivial ?_)
  refine Reaches.ite (fun hp => ?_) fun _ => Reaches.pure (tallied_clear s)
  refine Ensures.bind (Q := fun _ t => Tallied V.cfg V.id t) ?_ fun _ t ht => Reaches.pure ht
  refine Ensures.bind (addNewView_tallied (tallied_clear s) (NewView.new s.v)) ?_
  rintro _ t ⟨ht, hv⟩
  have hv : t.v = s.v := hv hp.1
  refine Reaches.ofOption_bind trivial fun vc _ =>
    Ensures.bind (addViewChange_tallied ht vc true true ?_ ?_) fun _ u hu => Reaches.pure hu
  · intro _
    rw [hv]
    exact hp.1.ne'
  · intro hb
    simp [NVInfo.isPrimary, hv, hp.2] at hb

theorem fetchRequest_calm (s : NVInfo) (n : Int) : Calm V (NVInfo.fetchRequest V n) s := by
  refine .get_bind (.ofOption_bind trivial fun nv _ =>
    .assert_bind trivial fun _ => .ofOption_bind trivial fun vc _ => ?_)
  refine .ofOption_bind trivial fun q _ => .ite (fun _ => ?_) fun _ => .pure (.refl s)
  refine .ofOption_bind trivial fun c _ => .ofOption_bind trivial
    fun j _ => .ofOption_bind trivial fun cur hcur => ?_
  exact .ofOption_bind trivial fun pp _ =>
    calm_modify_bind (steady_setCell hcur rfl) (.pure (.refl _))

theorem addMissing_calm (s : NVInfo) (pp : PrePrepareMsg) (digestOk : Bool) :
    Calm V (NVInfo.addMissing V pp digestOk) s := by
  refine .get_bind (.ofOption_bind trivial fun o _ =>
    .when (.refl s) fun _ => .ofOption_bind trivial fun r _ => ?_)
  cases r.findIdx? fun cur => cur.d == pp.digest with
  | none => exact .pure (.refl s)
  | some j =>
    refine .ofOption_bind trivial fun cur hcur => .when (.refl s) fun _ => ?_
    exact calm_modify_bind (steady_setCell hcur rfl) (checkComp_calm _ _ j)

theorem addMissingPrepare_calm (s : NVInfo) (p : Prepare) :
    Calm V (NVInfo.addMissingPrepare V p) s := by
  refine .get_bind (.ofOption_bind trivial fun o _ =>
    .when (.refl s) fun _ => .ofOption_bind trivial fun r _ => ?_)
  cases r.findIdx? fun cur => cur.d == p.digest with
  | none => exact .pure (.refl s)
  | some j =>
    refine .ofOption_bind trivial fun cur hcur => .when (.refl s)
      fun _ => .assert_bind trivial fun _ => ?_
    exact .when (.refl s) fun _ => calm_modify_bind (steady_setCell hcur rfl) (checkComp_calm _ _ j)

theorem markStable_calm (s : NVInfo) (ls : Int) : Calm V (NVInfo.markStable V ls) s := by
  refine .get_bind (.when (.refl s) fun _ => calm_modify_bind ?_ (.modify ?_))
  · exact ⟨quiet_of_eq rfl rfl rfl rfl fun _ => rfl, rfl, rfl, rfl, rfl, rfl, fun _ => rfl⟩
  · exact ⟨quiet_of_eq rfl rfl rfl rfl fun _ => rfl, rfl, rfl, rfl, rfl, rfl, fun h => h⟩

/-- What an operation ensures without a result. -/
theorem ensures_unit {α : Type} {x : Prog NVInfo α} {Q E : NVInfo → Prop}
    (h : Ensures x s (fun _ t => Q t) E) :
    Ensures (do let _ ← x) s (fun _ t => Q t) E :=
  Ensures.bind h fun _ _ ht => Reaches.pure ht

theorem perform_tallied (h : Tallied V.cfg V.id s) (op : NVOp) (hv : op.verified V.cfg V.id = true)
    (ha : ∀ m b b', op = .addViewChange m b b' → s.isPrimary V = false → s.vcCur + 1 = s.vcTarget →
      (s.store m).agree V.cfg = true) :
    Ensures (op.perform V) s (fun _ t => Tallied V.cfg V.id t) fun _ => True := by
  have hcalm : ∀ {α : Type} {x : Prog NVInfo α}, Calm V x s →
    Ensures x s (fun _ t => Tallied V.cfg V.id t) fun _ => True :=
    fun hx => Reaches.mono hx fun _ t ht => ht.toQuiet.tallied h
  cases op with
  | newNewView v => exact ensures_unit (Reaches.mono (addNewView_tallied h _) fun _ t ht => ht.1)
  | addNewView m => exact ensures_unit (Reaches.mono (addNewView_tallied h m) fun _ t ht => ht.1)
  | addViewChange m verified digestOk =>
    refine ensures_unit
      (addViewChange_tallied h m verified digestOk (fun heq => ?_) (ha m verified digestOk rfl))
    have hpos : 0 < m.v := by
      have hw := (Bool.and_eq_true_iff.1 hv).1
      exact (of_decide_eq_true hw).2.2.1
    omega
  | addAck m =>
    refine ensures_unit (addAck_tallied h m fun heq => ?_)
    have hpos : 0 < m.v := (of_decide_eq_true hv).2.2.2.1
    omega
  | fetchRequest n => exact ensures_unit (hcalm (fetchRequest_calm s n))
  | addMissing pp digestOk => exact hcalm (addMissing_calm s pp digestOk)
  | addMissingPrepare p => exact hcalm (addMissingPrepare_calm s p)
  | markStable ls => exact hcalm (markStable_calm s ls)
  | markStale => exact ensures_unit (markStale_tallied h)

theorem nvStep_tallied {a : NVStep} (h : Tallied cfg id s) (ha : agreeing cfg id s a = true)
    (hs : nvStep cfg id s a = some t) :
    Tallied cfg id t := by
  unfold nvStep at hs
  split at hs
  · rename_i hv
    have hp := perform_tallied (V := ⟨cfg, id, a.prePrepare, a.prepare⟩) h a.op hv ?_
    · cases hx : a.op.perform ⟨cfg, id, a.prePrepare, a.prepare⟩ s with
      | mk o u =>
        rw [hx] at hs
        cases o with
        | none => cases hs
        | some _ =>
          cases hs
          have hu : Tallied cfg id u := by
            have := hp.result.1
            rw [hx] at this
            exact this () rfl
          exact hu.of_sig rfl hu.marked
    · intro m b b' hop hb hc
      have hne : (cfg.primary s.v == id) = false := hb
      simpa [agreeing, hop, hne, hc] using ha
  · cases hs

theorem tallied_new : Tallied cfg id NVInfo.new := tallied_clear NVInfo.new

/-- What is selected has a quorum behind it: every entry with `2f + 1` in `n_le`, or marked
complete, is a request of a stored view-change, and `2f + 1` stored view-changes support it. -/
def Selected (cfg : Cfg) (s : NVInfo) : Prop :=
  ∀ i j cur, s.cell i j = some cur → (cfg.nf ≤ cur.nLe ∨ s.comp i = some (some j)) →
    (∃ vc, s.vcOf cur.id = some vc ∧ vc.req cfg.P i = some (cur.v, cur.d)) ∧
      cfg.nf ≤ s.supporters cfg i cur.v cur.d

theorem Tallied.selected (h : Tallied cfg id s) : Selected cfg s := by
  intro i j cur hc hsel
  have hnf : cfg.nf ≤ cur.nLe := by
    rcases hsel with hle | hcomp
    · exact hle
    · obtain ⟨cur', hc', hle⟩ := h.marked i j hcomp
      rw [hc] at hc'
      cases hc'
      exact hle
  refine ⟨(h.made i j cur hc).2, hnf.trans ((h.le i j cur hc).trans ?_)⟩
  exact support_mono fun x m _ hm => ⟨rfl, hm⟩

/-- **The selection rule.** In a run in which the view-changes that a backup checks agree with the
picks, whatever is selected has a quorum of view-changes that support it, at a primary and at a
backup. And the count of a backup is that of the view-changes that support the request exactly where
no other request was prepared in its view. -/
theorem selection_sound (cfg : Cfg) (id : Nat) :
    (∀ steps s, Run.Meets (nvStep cfg id) (fun s a => agreeing cfg id s a = true) NVInfo.new steps →
      Run.run (nvStep cfg id) NVInfo.new steps = some s → Selected cfg s) ∧
    (∀ V s i cur cur', V.cfg = cfg → cur.nLe = 0 → reqEvidence V s i cur = some cur' →
      (cur'.nLe = s.supporters cfg i cur.v cur.d ↔ s.agreeOn cfg i cur.v cur.d = true)) := by
  constructor
  · intro steps s hok hrun
    have hs : Tallied cfg id s :=
      Run.invariant (I := Tallied cfg id) (fun s a t hs ha ht => nvStep_tallied hs ha ht)
        tallied_new hok hrun
    exact hs.selected
  · rintro V s i cur cur' rfl h0 hev
    have hn : cur'.nLe = cur.nLe + s.noLater V.cfg i cur.v :=
      congrArg Tally.nLe (reqEvidence_tally hev)
    rw [hn, h0, Nat.zero_add]
    exact noLater_eq_iff i cur.v cur.d

/-- A view-change of replica `i` for view 1 that prepared request `d` of view 0 for sequence number
1. -/
def preparedVC (i : Nat) (d : Digest) : ViewChange where
  v := 1
  ls := 0
  id := i
  nCkpts := 1
  nReqs := 1
  prepared := [1#64]
  ckpts := [1]
  reqInfo := [⟨0, 0, d⟩]

/-- The view-changes of replicas 0, 2 and 3, the last one picked for sequence number 1. -/
def threeNewView : NewView where
  v := 1
  min := 0
  max := 2
  vcInfo i := if i = 1 then 0 else BitVec.ofNat 256 (i + 1)
  picked _ := 3

/-- The parent has the pre-prepare for every request. -/
def opStep (op : NVOp) : NVStep := ⟨op, fun n d => some (some ⟨0, n, d, []⟩), fun _ _ => false⟩

/-- Replica 0 receives the message and its view-changes. -/
def threeRun (d0 d2 d3 : Digest) : List NVStep :=
  [.addNewView threeNewView, .addViewChange (preparedVC 0 d0) true true,
    .addViewChange (preparedVC 2 d2) true true,
    .addViewChange (preparedVC 3 d3) true true].map opStep

/-- Three view-changes that prepared the same request: it is selected, with their support. -/
theorem selection_sound_three :
    ∃ s cur, Run.run (nvStep Replica.fourReplicas 0) NVInfo.new (threeRun 5 5 5) = some s ∧
      s.cell 1 0 = some cur ∧
      cur.d = 5 ∧ 3 ≤ s.supporters Replica.fourReplicas 1 0 5 := by
  have hrun : ((Run.run (nvStep Replica.fourReplicas 0) NVInfo.new (threeRun 5 5 5)).any fun s =>
      (s.cell 1 0).any fun cur => decide (3 ≤ cur.nLe ∧ cur.v = 0 ∧ cur.d = 5)) =
        true := by decide +kernel
  obtain ⟨s, hs, hcell⟩ := (Option.any_eq_true _ _).1 hrun
  obtain ⟨cur, hc, hcur⟩ := (Option.any_eq_true _ _).1 hcell
  obtain ⟨hle, hv, hd⟩ := of_decide_eq_true hcur
  have hsel := (selection_sound Replica.fourReplicas 0).1 (threeRun 5 5 5) s (by decide +kernel) hs
  have hnf := (hsel 1 0 cur hc (.inl hle)).2
  rw [hv, hd] at hnf
  exact ⟨s, cur, hs, hc, hd, hnf⟩

/-- Replica 0 prepared request 7 in view 0, the others request 5: the backup selects request 5 and
completes the new view, but only two view-changes support it. -/
theorem conflict_selected : ¬∀ (cfg : Cfg) (id : Nat) (steps : List NVStep) (s : NVInfo),
    Run.run (nvStep cfg id) NVInfo.new steps = some s → Selected cfg s := by
  intro hall
  have hrun : ((Run.run (nvStep Replica.fourReplicas 0) NVInfo.new (threeRun 7 5 5)).any fun s =>
      (s.cell 1 0).any fun cur =>
        decide (3 ≤ cur.nLe ∧ s.comp 1 = some (some 0) ∧ s.isComplete = true ∧
        s.supporters Replica.fourReplicas 1 cur.v cur.d = 2)) = true := by decide +kernel
  obtain ⟨s, hs, hcell⟩ := (Option.any_eq_true _ _).1 hrun
  obtain ⟨cur, hc, hcur⟩ := (Option.any_eq_true _ _).1 hcell
  obtain ⟨hle, -, -, htwo⟩ := of_decide_eq_true hcur
  have hsel := hall Replica.fourReplicas 0 (threeRun 7 5 5) s hs
  have hnf : 3 ≤ s.supporters Replica.fourReplicas 1 cur.v cur.d := (hsel 1 0 cur hc (.inl hle)).2
  omega

end NVInfo

end TinyBFT
