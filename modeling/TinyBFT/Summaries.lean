import TinyBFT.Selection
import TinyBFT.Lib.Summary

/-!
# The primary's summaries

A primary keeps a summary of the view-changes in its new-view message: `ckpts`, with an entry for
each last stable checkpoint, and once it has chosen one of them, for each sequence number a row with
an entry for each prepared request. `n_le` of an entry should be the number of view-changes that it
covers, and is raised by the view-changes that come in later; but a new entry starts with the number
of *entries* below it, not of view-changes (`NV_info.cc:278-281`, `:515-521`). So `n_le` is right
only as long as the view-changes that a new entry covers have entries of their own; otherwise it is
too small, and which checkpoint reaches a quorum depends on the order in which the acknowledgements
came in.

| here | there |
| --- | --- |
| `stable`     | `vcn` and `vclc` of `summarize` (`NV_info.cc:262-264`) |
| `byCkpt`, `byReq` | how `summarize` and `summarize_reqs` count (`Lib/Summary.lean`) |
| `Traced`     | an `NV_info`, and the order in which it has processed the view-changes |
| `processed`, `summed` | the view-changes that `summarize` and `summarize_reqs` have processed, in order |
-/

namespace TinyBFT

namespace NVInfo

open Prog (Ensures Reaches Within Composes Holds get modify assert ofOption when each eachUntil)

/-- The last stable checkpoint, with a null digest if there is none. -/
def stable (P : Params) (vc : ViewChange) : Int × Digest :=
  (vc.ls, ((vc.ckpt P vc.ls).bind fun c => c).getD 0)

def hasCkpt (P : Params) (n : Int) (d : Digest) (vc : ViewChange) : Bool :=
  vc.ckpt P n == some (some d)

/-- An entry for `(n, d)` should count the view-changes whose last stable checkpoint is not beyond
`n`. -/
def byCkpt : Summary (Int × Digest) where
  below x k := decide (x.1 < k.1)
  keyed k := !k.2.isZero
  le x k := decide (x.1 ≤ k.1)

/-- An entry for `(v, d)` should count the view-changes that prepared nothing, or a request of a
smaller view, or `(v, d)`. -/
def byReq : Summary (Int × Digest) where
  below x k := decide (x.1 < k.1)
  keyed _ := true
  le x k := decide (x = (-1, 0) ∨ x.1 < k.1 ∨ x = k)

theorem byCkpt_sound : byCkpt.Sound := by
  intro k x h
  simp only [Summary.covers, byCkpt, Bool.or_eq_true, decide_eq_true_eq] at h ⊢
  rcases h with rfl | h
  · exact le_rfl
  · exact h.le

theorem byReq_sound : byReq.Sound := by
  intro k x h
  simp only [Summary.covers, byReq, Bool.or_eq_true, decide_eq_true_eq] at h ⊢
  rcases h with rfl | h
  · exact .inr (.inr rfl)
  · exact .inr (.inl h)

/-! ## Runs -/

structure Traced where
  s : NVInfo
  nvOrder : List Nat
  reqOrder : List Nat

/-- The members of `p` below `n` in the order in which they came in, given those of before. -/
def follow (n : Nat) (old : List Nat) (p : Nat → Bool) : List Nat :=
  old.filter p ++ (List.range n).filter fun j => p j && !old.contains j

namespace Traced

def new : Traced := ⟨NVInfo.new, [], []⟩

/-- One operation; several view-changes are processed in the order of their senders. -/
def step (cfg : Cfg) (id : Nat) (σ : Traced) (a : NVStep) : Option Traced :=
  (nvStep cfg id σ.s a).map fun t =>
    ⟨t, follow cfg.n σ.nvOrder (t.inNewView cfg), follow cfg.n σ.reqOrder fun j => (t.vcs j).reqSum⟩

def processed (σ : Traced) : List ViewChange := σ.nvOrder.filterMap σ.s.vcOf

def summed (σ : Traced) : List ViewChange := σ.reqOrder.filterMap σ.s.vcOf

end Traced

section Follow

variable {n : Nat} {l : List Nat} {p q : Nat → Bool}

theorem mem_follow {j : Nat} (hp : ∀ j, p j = true → j < n) : j ∈ follow n l p ↔ p j = true := by
  simp only [follow, List.mem_append, List.mem_filter, List.mem_range,
    Bool.and_eq_true, Bool.not_eq_true',
    List.contains_eq_mem, decide_eq_false_iff_not]
  constructor
  · rintro (⟨-, h⟩ | ⟨-, h, -⟩)
    · exact h
    · exact h
  · intro h
    by_cases hl : j ∈ l
    · exact .inl ⟨hl, h⟩
    · exact .inr ⟨hp j h, h, hl⟩

theorem nodup_follow (hl : l.Nodup) : (follow n l p).Nodup := by
  refine List.nodup_append.2 ⟨hl.filter _, List.nodup_range.filter _, fun a ha b hb => ?_⟩
  rintro rfl
  have h1 := (List.mem_filter.1 ha).1
  have h2 := (List.mem_filter.1 hb).2
  simp [h1] at h2

theorem follow_eq_self (h : ∀ j, p j = true ↔ j ∈ l) : follow n l p = l := by
  have h1 : l.filter p = l := List.filter_eq_self.2 fun j hj => (h j).2 hj
  have h2 : ((List.range n).filter fun j => p j && !l.contains j) = [] := by
    refine List.filter_eq_nil_iff.2 fun j _ hj => ?_
    simp only [Bool.and_eq_true, Bool.not_eq_true', List.contains_eq_mem,
      decide_eq_false_iff_not] at hj
    exact hj.2 ((h j).1 hj.1)
  rw [follow, h1, h2, List.append_nil]

/-- The members below `n` of a set with a largest element. -/
theorem filter_range_snoc {a : Nat} (hp : ∀ j, p j = true → j < a)
    (hq : ∀ j, q j = true ↔ p j = true ∨ j = a) (ha : a < n) :
    (List.range n).filter q = (List.range n).filter p ++ [a] := by
  have hfold : ∀ m, (List.range m).filter q = (List.range m).filter p ++ if a < m then
    [a] else [] := by
    intro m
    induction m with
    | zero => simp
    | succ m ih =>
      rw [List.range_succ, List.filter_append, List.filter_append, ih]
      rcases Nat.lt_trichotomy m a with hlt | rfl | hgt
      · have hqm : q m = p m := by
          rw [Bool.eq_iff_iff, hq]
          exact or_iff_left (by omega)
        rw [if_neg (by omega), if_neg (by omega)]
        cases hpm : p m <;> simp [hqm, hpm]
      · have hpm : p m = false := by
          rw [Bool.eq_false_iff]
          intro h
          exact absurd (hp m h) (by omega)
        have hqm : q m = true := (hq m).2 (.inr rfl)
        simp [hpm, hqm]
      · have hpm : p m = false := by
          rw [Bool.eq_false_iff]
          intro h
          exact absurd (hp m h) (by omega)
        have hqm : q m = false := by
          rw [Bool.eq_false_iff, ne_eq, hq, hpm]
          rintro (h | h)
          · cases h
          · omega
        rw [if_pos hgt, if_pos (by omega)]
        simp [hpm, hqm]
  rw [hfold n, if_pos ha]

theorem follow_snoc {a : Nat} (h : ∀ j, q j = true ↔ j ∈ l ∨ j = a) (ha : a < n) (hl : a ∉ l) :
    follow n l q = l ++ [a] := by
  have h1 : l.filter q = l := List.filter_eq_self.2 fun j hj => (h j).2 (.inl hj)
  have h2 : ((List.range n).filter fun j => q j && !l.contains j) = [a] := by
    have := filter_range_snoc (n := n) (p := fun _ => false)
      (q := fun j => q j && !l.contains j) (a := a) (by simp)
      (fun j => ?_) ha
    · rw [this]
      simp
    · simp only [Bool.and_eq_true, Bool.not_eq_true', List.contains_eq_mem,
        decide_eq_false_iff_not, h, Bool.false_eq_true, false_or]
      constructor
      · rintro ⟨h1 | h1, h2⟩
        · exact absurd h1 h2
        · exact h1
      · rintro rfl
        exact ⟨.inr rfl, hl⟩
  rw [follow, h1, h2]

end Follow

/-! ## A row of requests -/

def reqEntry (c : ReqSum) : (Int × Digest) × Nat := ((c.v, c.d), c.nLe)

/-- The row of sequence number `i`. -/
def rowOf (s : NVInfo) (i : Int) : List ((Int × Digest) × Nat) :=
  (((s.row i).bind (s.reqs[·]?)).getD []).map reqEntry

/-- What the counting of requests leaves alone. -/
structure Framed (cfg : Cfg) (s t : NVInfo) : Prop where
  v : t.v = s.v
  vcOf : t.vcOf = s.vcOf
  reqSum : ∀ j, (t.vcs j).reqSum = (s.vcs j).reqSum
  min : t.min = s.min
  max : t.max = s.max
  ckpts : t.ckpts = s.ckpts
  chosen : t.chosenCkpt = s.chosenCkpt
  named : t.inNewView cfg = s.inNewView cfg
  complete : s.isComplete = true → t.isComplete = true

variable {V : NVEnv} {cfg : Cfg} {id : Nat} {s t u : NVInfo}

theorem Framed.refl (s : NVInfo) : Framed cfg s s :=
  ⟨rfl, rfl, fun _ => rfl, rfl, rfl, rfl, rfl, rfl, fun h => h⟩

theorem Framed.trans (h : Framed cfg s t) (h' : Framed cfg t u) : Framed cfg s u where
  v := h'.v.trans h.v
  vcOf := h'.vcOf.trans h.vcOf
  reqSum j := (h'.reqSum j).trans (h.reqSum j)
  min := h'.min.trans h.min
  max := h'.max.trans h.max
  ckpts := h'.ckpts.trans h.ckpts
  chosen := h'.chosen.trans h.chosen
  named := h'.named.trans h.named
  complete hs := h'.complete (h.complete hs)

theorem Steady.framed (h : Steady V s t) : Framed V.cfg s t where
  v := h.v
  vcOf := h.vcOf
  reqSum j := congrArg Prod.snd (congrFun (congrArg Sig.vcs h.sig) j)
  min := h.min
  max := h.max
  ckpts := h.ckpts
  chosen := h.chosen
  named := h.named
  complete := h.complete

theorem rowOf_getElem (s : NVInfo) (i : Int) (j : Nat) :
    (s.rowOf i)[j]? = (s.cell i j).map reqEntry := by
  unfold rowOf cell
  simp only [List.getElem?_map, Option.bind_eq_bind]
  cases s.row i with
  | none => rfl
  | some k =>
    simp only [Option.bind_some]
    cases s.reqs[k]? with
    | none => rfl
    | some r => rfl

theorem rowOf_of_row {i : Int} {k : Nat} {r : List ReqSum} (hk : s.row i = some k)
    (hr : s.reqs[k]? = some r) :
    s.rowOf i = r.map reqEntry := by
  simp [rowOf, hk, hr]

theorem any_reqEntry (row : List ReqSum) (r : Int × Digest) :
    ((row.map reqEntry).any fun e => decide (e.1 = r)) =
    row.any fun c => c.v == r.1 && c.d == r.2 := by
  rw [List.any_map]
  refine congrArg row.any (funext fun c => ?_)
  rw [Bool.eq_iff_iff, Function.comp_apply, decide_eq_true_iff, Bool.and_eq_true, beq_iff_eq,
    beq_iff_eq]
  exact Prod.ext_iff

/-- The rows are the same if their entries are. -/
theorem rowOf_congr {i : Int} (h : ∀ j, (t.cell i j).map reqEntry = (s.cell i j).map reqEntry) :
    t.rowOf i = s.rowOf i := by
  refine List.ext_getElem? fun j => ?_
  rw [rowOf_getElem, rowOf_getElem, h]

theorem Steady.rowOf (h : Steady V s t) (i : Int) : t.rowOf i = s.rowOf i := by
  refine rowOf_congr fun j => ?_
  have hcell : (t.cell i j).map tally = (s.cell i j).map tally :=
    congrFun (congrFun (congrArg Sig.cells h.sig) i) j
  have hentry : ∀ c : ReqSum, reqEntry c = (((tally c).v, (tally c).d), (tally c).nLe) :=
    fun _ => rfl
  cases ht : t.cell i j with
  | none =>
    rw [ht] at hcell
    rw [Option.map_eq_none_iff.1 hcell.symm]
  | some c =>
    rw [ht, Option.map_some] at hcell
    obtain ⟨c', hc', heq⟩ := Option.map_eq_some_iff.1 hcell.symm
    rw [hc', Option.map_some, Option.map_some, hentry, hentry, heq]

theorem supports_eq_covers {P : Params} {vc : ViewChange} {i : Int} {r : Int × Digest}
    (hr : vc.req P i = some r) (v : Int) (d : Digest) :
    supports P i v d vc = byReq.covers (v, d) r := by
  rw [supports_of_req hr, Bool.eq_iff_iff]
  simp only [Summary.covers, byReq, decide_eq_true_eq, Bool.or_eq_true, Prod.ext_iff]
  exact or_comm

/-- An entry is raised if it covers the request. -/
theorem sumEntry_row {vc : ViewChange} {i : Int} {r : Int × Digest}
    (hr : vc.req V.cfg.P i = some r) (j : Nat) :
    Ensures (sumEntry V vc i r.1 r.2 j) s
      (fun b t => Framed V.cfg s t ∧ (b = true → t.isComplete = true) ∧
          (∀ i', i' ≠ i → t.rowOf i' = s.rowOf i') ∧
        ∀ j', (t.rowOf i)[j']? = if j' = j then ((s.rowOf i)[j]?).map (byReq.bump r)
          else (s.rowOf i)[j']?)
      fun _ => True := by
  refine Reaches.get_bind (Reaches.ofOption_bind trivial
    fun cur hcur => Reaches.ofOption_bind trivial fun cur' hcur' => ?_)
  have ht := countReq_tally hr hcur'
  have hentry : reqEntry cur' = byReq.bump r (reqEntry cur) := by
    simp only [tally, Tally.mk.injEq] at ht
    obtain ⟨h1, h2, h3, -⟩ := ht
    rw [supports_eq_covers hr] at h3
    by_cases hc : byReq.covers (cur.v, cur.d) r = true
    · simp [reqEntry, Summary.bump, h1, h2, h3, hc]
    · simp [reqEntry, Summary.bump, h1, h2, h3, hc]
  refine Reaches.modify_bind trivial (Ensures.bind (checkComp_calm _ i j) fun _ t ht => ?_)
  refine Reaches.get_bind (Reaches.pure ⟨?_, fun hb => hb, fun i' hi' => ?_, fun j' => ?_⟩)
  · have hset : Framed V.cfg s (NVInfo.setCell i j cur' s) :=
      ⟨rfl, rfl, fun _ => rfl, rfl, rfl, rfl, rfl, rfl, fun h => h⟩
    exact hset.trans ht.framed
  · rw [ht.rowOf]
    refine rowOf_congr fun k => ?_
    rw [cell_setCell hcur, if_neg fun h => hi' h.1]
  · rw [ht.rowOf, rowOf_getElem, cell_setCell hcur]
    by_cases hj : j' = j
    · rw [if_pos ⟨rfl, hj⟩, if_pos hj, rowOf_getElem, hcur,
        Option.map_some, Option.map_some, Option.map_some, hentry]
    · rw [if_neg fun h => hj h.2, if_neg hj, rowOf_getElem]

/-- A new entry starts with the number of entries below it. -/
theorem addEntry_row {vc : ViewChange} {i : Int} {r : Int × Digest} :
    Ensures (addEntry V vc i r.1 r.2) s
      (fun _ t => Framed V.cfg s t ∧ (∀ i', i' ≠ i → t.rowOf i' = s.rowOf i') ∧
        t.rowOf i = s.rowOf i ++ [(r, ((s.rowOf i).filter fun e => byReq.below e.1 r).length + 1)])
      fun _ => True := by
  refine Reaches.get_bind (Reaches.ofOption_bind trivial
    fun k hk => Reaches.ofOption_bind trivial fun row hrow => ?_)
  refine Reaches.ofOption_bind trivial fun cur hcur => ?_
  have ht := searchProofs_tally hcur
  simp only [tally, Tally.mk.injEq] at ht
  obtain ⟨h1, h2, h3, -⟩ := ht
  set t : NVInfo := { s with reqs := s.reqs.modify k fun r => r ++ [cur] } with htdef
  have hget := cell_modify (t := t) hk hrow rfl rfl
  have hframe : Framed V.cfg s t := ⟨rfl, rfl, fun _ => rfl, rfl, rfl, rfl, rfl, rfl, fun h => h⟩
  have hlen : (row.filter fun cur => decide (cur.v < r.1)).length =
    ((s.rowOf i).filter fun e => byReq.below e.1 r).length := by
    rw [rowOf_of_row hk hrow, List.filter_map, List.length_map]
    rfl
  have hrowt :
    t.rowOf i = s.rowOf i ++ [(r, ((s.rowOf i).filter fun e => byReq.below e.1 r).length + 1)] := by
    have hkt : t.row i = some k := by
      simpa [NVInfo.row, htdef] using hk
    have hrt : t.reqs[k]? = some (row ++ [cur]) := by
      simp [htdef, hrow]
    rw [rowOf_of_row hkt hrt, rowOf_of_row hk hrow, List.map_append, ← rowOf_of_row hk hrow, ← hlen]
    simp [reqEntry, h1, h2, h3]
  refine Reaches.modify_bind trivial (Reaches.mono (checkComp_calm _ i row.length)
    fun _ u hu => ⟨hframe.trans hu.framed, ?_, ?_⟩)
  · intro i' hi'
    rw [hu.rowOf]
    refine rowOf_congr fun j => ?_
    rw [hget, if_neg hi']
  · rw [hu.rowOf]
    exact hrowt

/-- **A row** counts a request as a summary does. -/
theorem sumReq_row {vc : ViewChange} {i : Int} :
    Ensures (sumReq V vc i) s
      (fun b t => Framed V.cfg s t ∧ (b = true → t.isComplete = true) ∧
        (b = false → ∃ r, vc.req V.cfg.P i = some r ∧ t.rowOf i = byReq.add (s.rowOf i) r ∧
          ∀ i', i' ≠ i → t.rowOf i' = s.rowOf i'))
      fun _ => True := by
  refine Reaches.get_bind (Reaches.ofOption_bind trivial
    fun k hk => Reaches.ofOption_bind trivial fun row hrow => ?_)
  refine Reaches.ofOption_bind trivial fun r hr => ?_
  have hs := rowOf_of_row hk hrow
  let I (js : List Nat) (t : NVInfo) : Prop :=
    js.Nodup ∧ Framed V.cfg s t ∧ (∀ i', i' ≠ i → t.rowOf i' = s.rowOf i') ∧
    ∀ j, (t.rowOf i)[j]? = ((s.rowOf i)[j]?).map fun e => if j ∈ js then e else byReq.bump r e
  have hloop := Reaches.eachUntil (R := fun _ _ => True)
    (C := fun _ _ => True) (x := sumEntry V vc i r.1 r.2) (I := I)
    (E := fun t => Framed V.cfg s t ∧ t.isComplete = true) ?_ (List.range row.length) s ?_
  · refine Ensures.bind hloop fun done t ht => ?_
    cases done with
    | true =>
      have ht : Framed V.cfg s t ∧ t.isComplete = true := by simpa using ht
      exact Reaches.pure ⟨ht.1, fun _ => ht.2, fun hb => Bool.noConfusion hb⟩
    | false =>
      obtain ⟨-, hframe, hother, hrowt⟩ : I [] t := by simpa using ht
      -- the row is raised
      have hbump : t.rowOf i = (s.rowOf i).map (byReq.bump r) := by
        refine List.ext_getElem? fun j => ?_
        rw [hrowt, List.getElem?_map]
        simp
      have hadd : byReq.add (s.rowOf i) r = (s.rowOf i).map (byReq.bump r) ++
          if (!row.any fun cur => cur.v == r.1 && cur.d == r.2) = true then
            [(r, ((s.rowOf i).filter fun e => byReq.below e.1 r).length + 1)] else [] := by
        rw [Summary.add, hs, any_reqEntry]
        rfl
      refine Ensures.bind (Q := fun _ u => Framed V.cfg s u ∧
        (∀ i', i' ≠ i → u.rowOf i' = s.rowOf i') ∧
        u.rowOf i = byReq.add (s.rowOf i) r) (Reaches.when (fun hm => ?_)
          fun hm => ?_) fun _ u hu =>
          Reaches.pure ⟨hu.1, fun hb => Bool.noConfusion hb, fun _ => ⟨r, hr, hu.2.2, hu.2.1⟩⟩
      · refine Reaches.mono addEntry_row fun _ u hu =>
          ⟨hframe.trans hu.1, fun i' hi' => (hu.2.1 i' hi').trans (hother i' hi'), ?_⟩
        have hbelow : (((s.rowOf i).map (byReq.bump r)).filter fun e => byReq.below e.1 r).length =
            ((s.rowOf i).filter fun e => byReq.below e.1 r).length := by
          rw [List.filter_map, List.length_map]
          rfl
        rw [hadd, if_pos hm, hu.2.2, hbump, hbelow]
      · refine ⟨hframe, hother, ?_⟩
        rw [hadd, hm, if_neg Bool.false_ne_true, List.append_nil, hbump]
  · rintro j js t ⟨hnodup, hframe, hother, hrowt⟩
    obtain ⟨hj, hjs⟩ := List.nodup_cons.1 hnodup
    refine Reaches.mono (sumEntry_row hr j) fun b u hsum => ?_
    obtain ⟨h1, h2, h3, h4⟩ := hsum
    cases b with
    | true => exact ⟨hframe.trans h1, h2 rfl⟩
    | false =>
      refine ⟨hjs, hframe.trans h1, fun i' hi' => (h3 i' hi').trans (hother i' hi'), fun j' => ?_⟩
      rw [h4]
      by_cases hj' : j' = j
      · subst hj'
        rw [if_pos rfl, hrowt, Option.map_map]
        congr 1
        ext1 e
        simp [hj]
      · rw [if_neg hj', hrowt]
        simp [hj']
  · refine ⟨List.nodup_range, .refl s, fun _ _ => rfl, fun j => ?_⟩
    cases hj : (s.rowOf i)[j]? with
    | none => rfl
    | some e =>
      have hlt : j < row.length := by
        have := (List.getElem?_eq_some_iff.1 hj).1
        rw [hs, List.length_map] at this
        exact this
      simp [hlt]

/-! ## The rows -/

/-- The requests for `i` of the view-changes whose last stable checkpoint is below. -/
def requests (P : Params) (i : Int) (W : List ViewChange) : List (Int × Digest) :=
  W.filterMap fun vc => vc.req P i

theorem requests_snoc {P : Params} {i : Int} {W : List ViewChange} {vc : ViewChange} :
    requests P i (W ++ [vc]) = requests P i W ++ (vc.req P i).toList := by
  cases h : vc.req P i <;> simp [requests, h]

/-- The rows of a primary are the summaries of the view-changes `l`. -/
structure Rowed (cfg : Cfg) (s : NVInfo) (l : List Nat) : Prop where
  stored : ∀ j, s.inNewView cfg j = true → j < cfg.n ∧ ∃ vc, s.vcOf j = some vc ∧ vc.id = j
  summed : ∀ j, j ∈ l ↔ (s.vcs j).reqSum = true
  named : ∀ j, (s.vcs j).reqSum = true → s.inNewView cfg j = true
  unchosen : s.chosenCkpt = none → s.reqs = [] ∧ l = []
  least : ∀ k, s.chosenCkpt = some k → ∃ c, s.ckpts[k]? = some c ∧ c.n = s.min
  rows : s.isComplete = false → ∀ i, s.min < i → i < s.max →
    s.rowOf i = byReq.entries (requests cfg.P i (l.filterMap s.vcOf))

theorem Rowed.steady {l : List Nat} (h : Rowed V.cfg s l) (ht : Steady V s t) :
    Rowed V.cfg t l := by
  have hf := ht.framed
  constructor
  · rw [hf.named, hf.vcOf]
    exact h.stored
  · intro j
    rw [hf.reqSum]
    exact h.summed j
  · intro j
    rw [hf.reqSum, hf.named]
    exact h.named j
  · rw [hf.chosen]
    intro hn
    refine ⟨?_, (h.unchosen hn).2⟩
    have hrows : t.reqs.isEmpty = s.reqs.isEmpty := congrArg Sig.noRows ht.sig
    rw [(h.unchosen hn).1] at hrows
    simpa using hrows
  · rw [hf.chosen, hf.ckpts, hf.min]
    exact h.least
  · rw [hf.min, hf.max, hf.vcOf]
    intro hc i h1 h2
    have hs : s.isComplete = false := by
      by_contra hs
      rw [hf.complete (by simpa using hs)] at hc
      cases hc
    rw [ht.rowOf]
    exact h.rows hs i h1 h2

/-- `vcs[j].req_sum = true` -/
def markSum (j : Nat) (s : NVInfo) : NVInfo :=
  { s with vcs := Function.update s.vcs j { s.vcs j with reqSum := true } }

theorem markSum_reqSum (j k : Nat) (s : NVInfo) :
    ((s.markSum j).vcs k).reqSum = true ↔ (s.vcs k).reqSum = true ∨ k = j := by
  by_cases hk : k = j
  · simp [markSum, hk]
  · simp [markSum, hk]

theorem markSum_vcOf (j : Nat) (s : NVInfo) : (s.markSum j).vcOf = s.vcOf := by
  ext1 k
  by_cases hk : k = j
  · simp [markSum, NVInfo.vcOf, hk]
  · simp [markSum, NVInfo.vcOf, hk]

/-- **`summarize_reqs`**: one more view-change in every row. -/
theorem summarizeReqs_rowed {l : List Nat} (h : Rowed V.cfg s l) {vc : ViewChange}
    (hvc : s.vcOf vc.id = some vc) (hch : s.chosenCkpt.isSome = true) :
    Ensures (summarizeReqs V vc) s
      (fun _ t => Framed V.cfg (s.markSum vc.id) t ∧ Rowed V.cfg t (l ++ [vc.id]) ∧
          (s.vcs vc.id).reqSum = false)
      fun _ => True := by
  refine Reaches.get_bind (Reaches.assert_bind trivial fun ha => Reaches.modify_bind trivial ?_)
  obtain ⟨⟨hin, hnot⟩, hc⟩ : (s.inNewView V.cfg vc.id = true ∧ (s.vcs vc.id).reqSum = false) ∧
    s.isComplete = false := by
    simpa using ha
  set lo := if vc.ls < s.min then s.min else vc.ls with hlo
  change Ensures _ (s.markSum vc.id) _ _
  set s1 := s.markSum vc.id with hs1
  let all := intRange (lo + 1) s.max
  let I (is : List Int) (t : NVInfo) : Prop := is.Nodup ∧ is ⊆ all ∧ Framed V.cfg s1 t ∧
    (∀ i, i ∈ is ∨ i ∉ all → t.rowOf i = s1.rowOf i) ∧
    ∀ i ∈ all, i ∉ is → ∃ r, vc.req V.cfg.P i = some r ∧ t.rowOf i = byReq.add (s1.rowOf i) r
  have hloop :=
    Reaches.eachUntil (R := fun _ _ => True) (C := fun _ _ => True) (x := sumReq V vc) (I := I)
    (E := fun t => Framed V.cfg s1 t ∧ t.isComplete = true) ?_ all s1 ?_
  · -- what the loop leaves, with the rows if the new view is not complete
    refine Ensures.bind (Q := fun _ t => Framed V.cfg s1 t ∧ (t.isComplete = false → I [] t)) ?_
      fun _ t hft => ?_
    · refine Reaches.mono hloop fun b t ht => ?_
      cases b with
      | true => exact ⟨ht.1, fun hc' => by rw [ht.2] at hc'; cases hc'⟩
      | false => exact ⟨ht.2.2.1, fun _ => ht⟩
    · obtain ⟨hf, hI⟩ := hft
      refine Reaches.pure ⟨hf, ?_, hnot⟩
      have hvcOf : t.vcOf = s.vcOf := hf.vcOf.trans (markSum_vcOf _ _)
      have hsum : ∀ j, (t.vcs j).reqSum = true ↔ (s.vcs j).reqSum = true ∨ j = vc.id := by
        intro j
        rw [hf.reqSum]
        exact markSum_reqSum _ _ _
      have hnamed : t.inNewView V.cfg = s.inNewView V.cfg := hf.named
      have hchosen : t.chosenCkpt = s.chosenCkpt := hf.chosen
      constructor
      · rw [hnamed, hvcOf]
        exact h.stored
      · intro j
        rw [hsum, List.mem_append, List.mem_singleton, h.summed]
      · intro j hj
        rw [hnamed]
        rcases (hsum j).1 hj with hj | rfl
        · exact h.named j hj
        · exact hin
      · intro hn
        rw [← hchosen, hn] at hch
        cases hch
      · rw [hchosen, hf.ckpts, hf.min]
        exact h.least
      · intro hc' i h1 h2
        obtain ⟨-, -, -, hsame, hadd⟩ := hI hc'
        rw [hf.min] at h1
        rw [hf.max] at h2
        have hold : s1.rowOf i = byReq.entries (requests V.cfg.P i (l.filterMap s.vcOf)) :=
          h.rows hc i h1 h2
        have hlist : (l ++ [vc.id]).filterMap t.vcOf = l.filterMap s.vcOf ++ [vc] := by
          rw [hvcOf, List.filterMap_append]
          simp [hvc]
        rw [hlist, requests_snoc]
        by_cases hi : i ∈ all
        · obtain ⟨r, hr, hrow⟩ := hadd i hi (by simp)
          rw [hrow, hold, hr, Option.toList_some, Summary.entries_snoc]
        · have hle : i ≤ vc.ls := by
            by_contra hgt
            refine hi (mem_intRange.2 ⟨?_, h2⟩)
            have h1 : s.min < i := h1
            rw [hlo]
            split <;> omega
          have hreq : vc.req V.cfg.P i = none := by simp [ViewChange.req, hle]
          rw [hsame i (.inr hi), hold, hreq, Option.toList_none, List.append_nil]
  · rintro i is t ⟨hnodup, hsub, hf, hsame, hadd⟩
    obtain ⟨hi, his⟩ := List.nodup_cons.1 hnodup
    refine Reaches.mono sumReq_row fun b u hrow => ?_
    obtain ⟨h1, h2, h3⟩ := hrow
    cases b with
    | true => exact ⟨hf.trans h1, h2 rfl⟩
    | false =>
      obtain ⟨r, hr, hrow, hother⟩ := h3 rfl
      refine ⟨his, fun x hx => hsub (by simp [hx]),
        hf.trans h1, fun i' hi' => ?_, fun i' hi' hni => ?_⟩
      · have hne : i' ≠ i := by
          rintro rfl
          rcases hi' with hmem | hnot
          · exact hi hmem
          · exact hnot (hsub (by simp))
        rw [hother i' hne]
        exact hsame i' (hi'.imp (fun hmem => by simp [hmem]) fun hnot => hnot)
      · by_cases hne : i' = i
        · subst hne
          exact ⟨r, hr, by rw [hrow, hsame i' (.inl (by simp))]⟩
        · rw [hother i' hne]
          exact hadd i' hi' (by simp [hne, hni])
  · exact ⟨nodup_intRange _ _, fun _ hx => hx, .refl s1,
      fun _ _ => rfl, fun i hi hni => absurd hi hni⟩

/-! ## Choosing a checkpoint -/

/-- The view-changes whose requests were summarized, by their senders. -/
def sorted (cfg : Cfg) (s : NVInfo) : List Nat :=
  (List.range cfg.n).filter fun j => (s.vcs j).reqSum

/-- What choosing a checkpoint leaves alone. -/
structure Choosing (cfg : Cfg) (s t : NVInfo) : Prop where
  v : t.v = s.v
  vcOf : t.vcOf = s.vcOf
  named : t.inNewView cfg = s.inNewView cfg
  ckpts : t.ckpts = s.ckpts
  complete : s.isComplete = true → t.isComplete = true
  /-- Once one is chosen, no view-change is summarized. -/
  chosen : s.chosenCkpt.isSome = true → t.chosenCkpt.isSome = true ∧ ∀ j,
    (t.vcs j).reqSum = (s.vcs j).reqSum

theorem Choosing.refl (s : NVInfo) : Choosing cfg s s :=
  ⟨rfl, rfl, rfl, rfl, fun h => h, fun h => ⟨h, fun _ => rfl⟩⟩

theorem Choosing.trans (h : Choosing cfg s t) (h' : Choosing cfg t u) : Choosing cfg s u where
  v := h'.v.trans h.v
  vcOf := h'.vcOf.trans h.vcOf
  named := h'.named.trans h.named
  ckpts := h'.ckpts.trans h.ckpts
  complete hs := h'.complete (h.complete hs)
  chosen hs := ⟨(h'.chosen (h.chosen hs).1).1, fun j =>
    ((h'.chosen (h.chosen hs).1).2 j).trans ((h.chosen hs).2 j)⟩

theorem Framed.choosing (h : Framed cfg s t) : Choosing cfg s t :=
  ⟨h.v, h.vcOf, h.named, h.ckpts, h.complete, fun hs => ⟨by rw [h.chosen]; exact hs, h.reqSum⟩⟩

theorem sorted_congr (h : ∀ j, (t.vcs j).reqSum = (s.vcs j).reqSum) :
    sorted cfg t = sorted cfg s := by
  simp [sorted, h]

/-- The order of the summarized view-changes, given the one of before if a checkpoint was chosen
then. -/
def orderOf (cfg : Cfg) (chosen : Bool) (l : List Nat) (t : NVInfo) : List Nat :=
  if chosen then l else sorted cfg t

/-- The first checkpoint: the requests of the view-changes in the message are summarized in the
order of their senders. -/
theorem chooseFirst_rowed {l : List Nat} (h : Rowed V.cfg s l) (hn : s.chosenCkpt = none)
    {index : Nat} {cur : CkptSum} (hcur : s.ckpts[index]? = some cur) :
    Ensures (chooseFirst V index cur) s (fun _ t =>
        Rowed V.cfg t (sorted V.cfg t) ∧ t.chosenCkpt.isSome = true ∧ Choosing V.cfg s t)
      fun _ => True := by
  refine Reaches.assert_bind trivial fun _ => Reaches.modify_bind trivial ?_
  obtain ⟨hreqs, hl⟩ := h.unchosen hn
  have hunchosen : ¬s.chosenCkpt.isSome = true := by simp [hn]
  set k := (cur.maxSeqno + 1 - (cur.n + 1)).toNat
  set s1 : NVInfo := { s with
    chosenCkpt := some index, min := cur.n, base := cur.n + 1, max := cur.maxSeqno + 1
    reqs := s.reqs ++ List.replicate k [], compReqs :=
      List.replicate (s.compReqs.length + k) none } with hs1
  have hnone : ∀ j, (s.vcs j).reqSum = false := by
    intro j
    have := (h.summed j).not
    rw [hl] at this
    simpa using this
  have hsorted : sorted V.cfg s1 = [] := by
    simp [sorted, hs1, hnone]
  have hrow : ∀ i, s1.rowOf i = [] := by
    intro i
    refine List.ext_getElem? fun j => ?_
    rw [rowOf_getElem]
    cases hc : s1.cell i j with
    | none => rfl
    | some c =>
      obtain ⟨k, r, -, hk, hj⟩ := cell_eq_some.1 hc
      simp only [hs1, hreqs, List.nil_append] at hk
      rw [replicate_nil hk] at hj
      cases hj
  have hrowed : Rowed V.cfg s1 (sorted V.cfg s1) := by
    rw [hsorted]
    refine ⟨h.stored, fun j => ?_, h.named, fun h0 => ?_, fun i hi => ?_, fun _ i _ _ => ?_⟩
    · simp [hs1, hnone]
    · cases h0
    · cases hi
      exact ⟨cur, hcur, rfl⟩
    · rw [hrow]
      rfl
  have hchoosing : Choosing V.cfg s s1 :=
    ⟨rfl, rfl, rfl, rfl, fun h => h, fun hs => absurd hs hunchosen⟩
  let P (t : NVInfo) : Prop :=
    Rowed V.cfg t (sorted V.cfg t) ∧ t.chosenCkpt.isSome = true ∧ Choosing V.cfg s t
  refine Reaches.mono (Reaches.eachUntil (E := P) (I := fun is t =>
    P t ∧ is.Pairwise (· < ·) ∧ (∀ i ∈ is, i < V.cfg.n) ∧
    ∀ j, (t.vcs j).reqSum = true → ∀ i ∈ is, j < i) ?_ _ s1 ?_) ?_
  · rintro i is t ⟨⟨hr, hch, hcho⟩, hpair, hlt, hbelow⟩
    obtain ⟨hi, his⟩ := List.pairwise_cons.1 hpair
    refine Reaches.get_bind (Reaches.ite (fun hin => ?_) fun _ => Reaches.pure ?_)
    · obtain ⟨-, vc, hvc, hid⟩ := hr.stored i hin
      refine Reaches.ofOption_bind trivial fun vc' hvc' => ?_
      rw [hvc] at hvc'
      cases hvc'
      refine Ensures.bind (summarizeReqs_rowed hr (by rw [hid]; exact hvc) hch)
        fun _ u ⟨hf, hu, _⟩ => ?_
      have hsum : ∀ j, (u.vcs j).reqSum = true ↔ (t.vcs j).reqSum = true ∨ j = i := by
        intro j
        rw [hf.reqSum, markSum_reqSum, hid]
      have hsort : sorted V.cfg u = sorted V.cfg t ++ [i] :=
        filter_range_snoc (fun j hj => hbelow j hj i (by simp)) hsum (hlt i (by simp))
      have hPu : P u := by
        have hchu : u.chosenCkpt = t.chosenCkpt := hf.chosen
        refine ⟨?_, by rw [hchu]; exact hch, ?_⟩
        · rw [hsort, ← hid]
          exact hu
        · refine ⟨hf.v.trans hcho.v, ?_, hf.named.trans hcho.named,
            hf.ckpts.trans hcho.ckpts, ?_, ?_⟩
          · exact (hf.vcOf.trans (markSum_vcOf _ _)).trans hcho.vcOf
          · exact fun hs => hf.complete (hcho.complete hs)
          · exact fun hs => absurd hs hunchosen
      refine Reaches.get_bind (Reaches.pure ?_)
      by_cases hc : u.isComplete = true
      · rw [if_pos hc]
        exact hPu
      · rw [if_neg hc]
        refine ⟨hPu, his, fun x hx => hlt x (by simp [hx]), fun j hj x hx => ?_⟩
        rcases (hsum j).1 hj with hj | rfl
        · exact hbelow j hj x (by simp [hx])
        · exact hi x hx
    · rw [if_neg Bool.false_ne_true]
      exact ⟨⟨hr, hch, hcho⟩, his, fun x hx => hlt x (by simp [hx]),
        fun j hj x hx => hbelow j hj x (by simp [hx])⟩
  · refine ⟨⟨hrowed, rfl, hchoosing⟩, List.pairwise_lt_range,
      fun i hi => List.mem_range.1 hi, fun j hj => ?_⟩
    have hj : (s.vcs j).reqSum = true := hj
    rw [hnone] at hj
    cases hj
  · intro b t ht
    cases b with
    | true => exact ht
    | false => exact ht.1

theorem chooseLater_rowed {l : List Nat} (h : Rowed V.cfg s l) {index : Nat} {cur : CkptSum}
    (hcur : s.ckpts[index]? = some cur) :
    Ensures (chooseLater index cur) s (fun _ t => Rowed V.cfg t l ∧ Choosing V.cfg s t)
      fun _ => True := by
  refine Reaches.get_bind (Reaches.ofOption_bind trivial
    fun old hold => Reaches.when (fun hlt => ?_) fun _ => ⟨h, .refl s⟩)
  refine Reaches.ofOption_bind trivial fun k _ => Reaches.modify trivial ?_
  have hlt : old.n < cur.n := by simpa using hlt
  have hmin : old.n = s.min := by
    obtain ⟨j, hj, hget⟩ := Option.bind_eq_some_iff.1 hold
    obtain ⟨c, hc, hcn⟩ := h.least j hj
    rw [hc] at hget
    cases hget
    exact hcn
  refine ⟨⟨h.stored, h.summed, h.named, fun hn => ?_, fun i hi => ?_, fun hc i h1 h2 => ?_⟩, ?_⟩
  · cases hn
  · cases hi
    exact ⟨cur, hcur, rfl⟩
  · have h1 : cur.n < i := h1
    have h2 : i < if cur.maxSeqno + 1 < s.max then cur.maxSeqno + 1 else s.max := h2
    have h2 : i < s.max := by
      split at h2 <;> omega
    exact h.rows hc i (by omega) h2
  · exact ⟨rfl, rfl, rfl, rfl, fun h => h, fun _ => ⟨rfl, fun _ => rfl⟩⟩

theorem finishIf_steady {l : List Nat} (h : Rowed V.cfg s l) :
    Ensures (finishIf (makeNewView V)) s (fun _ t => Rowed V.cfg t l ∧ Framed V.cfg s t)
      fun _ => True :=
  Reaches.mono (finishIf_calm makeNewView_calm s) fun _ _ ht => ⟨h.steady ht, ht.framed⟩

/-- **`choose_ckpt`** -/
theorem chooseCkpt_rowed {l : List Nat} (h : Rowed V.cfg s l) (index : Nat) :
    Ensures (chooseCkpt V index) s
      (fun _ t => Rowed V.cfg t (orderOf V.cfg s.chosenCkpt.isSome l t) ∧ Choosing V.cfg s t)
        fun _ => True := by
  refine Reaches.get_bind (Reaches.assert_bind trivial
    fun _ => Reaches.ofOption_bind trivial fun cur hcur => ?_)
  refine Reaches.assert_bind trivial fun _ => Reaches.ite (fun hn => ?_) fun hn => ?_
  · have hnone : s.chosenCkpt = none := by simpa using hn
    have horder : ∀ t, orderOf V.cfg s.chosenCkpt.isSome l t = sorted V.cfg t := by
      intro t
      simp [orderOf, hnone]
    refine Ensures.bind (chooseFirst_rowed h hnone hcur)
      fun done t ⟨hr, hch, hcho⟩ => Reaches.ite (fun _ => Reaches.pure ?_) fun _ => ?_
    · rw [horder]
      exact ⟨hr, hcho⟩
    · refine Reaches.mono (finishIf_steady hr) fun _ u ⟨hu, hf⟩ => ⟨?_, hcho.trans hf.choosing⟩
      rw [horder, sorted_congr hf.reqSum]
      exact hu
  · have hsome : s.chosenCkpt.isSome = true := by
      cases hs : s.chosenCkpt with
      | none => simp [hs] at hn
      | some k => rfl
    refine Ensures.bind (chooseLater_rowed h hcur) fun _ t ⟨hr, hcho⟩ => ?_
    refine Reaches.mono (finishIf_steady hr) fun _ u ⟨hu, hf⟩ => ⟨?_, hcho.trans hf.choosing⟩
    rw [orderOf, if_pos hsome]
    exact hu

/-! ## The checkpoints -/

def ckptEntry (c : CkptSum) : (Int × Digest) × Nat := ((c.n, c.d), c.nLe)

/-- The checkpoints of a primary are the summary of the view-changes `W`, and the proofs are
right. -/
structure Ckpted (P : Params) (ckpts : List CkptSum) (W : List ViewChange) : Prop where
  entries : ckpts.map ckptEntry = byCkpt.entries (W.map (stable P))
  proofs : ∀ c ∈ ckpts, c.nProofs = W.countP (hasCkpt P c.n c.d)

/-- `c'` is `c` with the view-change counted. -/
structure CountedIn (P : Params) (vc : ViewChange) (c c' : CkptSum) : Prop where
  n : c'.n = c.n
  d : c'.d = c.d
  nLe : c'.nLe = c.nLe + if byCkpt.covers (c.n, c.d) (stable P vc) then 1 else 0
  nProofs : c'.nProofs = c.nProofs + if hasCkpt P c.n c.d vc then 1 else 0

theorem stable_of_ckpt {P : Params} {vc : ViewChange} {o : Option Digest}
    (ho : vc.ckpt P vc.ls = some o) :
    stable P vc = (vc.ls, o.getD 0) := by
  simp [stable, ho]

/-- An entry of a checkpoint counts a view-change. -/
theorem countCkpt_countedIn {vc : ViewChange} {o : Option Digest} {c c' : CkptSum}
    (ho : vc.ckpt V.cfg.P vc.ls = some o) (hd : c.d.isZero = false)
    (h : countCkpt V vc (o.getD 0) c = some c') : CountedIn V.cfg.P vc c c' := by
  have hcovers : byCkpt.covers (c.n, c.d) (stable V.cfg.P vc) = true ↔
    (c.n = vc.ls ∧ c.d = o.getD 0) ∨ vc.ls < c.n := by
    rw [stable_of_ckpt ho]
    simp only [Summary.covers, byCkpt, Bool.or_eq_true, decide_eq_true_eq, Prod.mk.injEq]
    constructor
    · rintro (⟨h1, h2⟩ | h)
      · exact .inl ⟨h1.symm, h2.symm⟩
      · exact .inr h
    · rintro (⟨h1, h2⟩ | h)
      · exact .inl ⟨h1.symm, h2.symm⟩
      · exact .inr h
  simp only [countCkpt, Option.bind_eq_bind] at h
  by_cases hm : c.n = vc.ls ∧ c.d = o.getD 0
  · rw [if_pos hm] at h
    cases h
    have hhas : hasCkpt V.cfg.P c.n c.d vc = true := by
      cases o with
      | none =>
        rw [hm.2] at hd
        cases hd
      | some d => simp [hasCkpt, hm.1, hm.2, ho]
    exact ⟨rfl, rfl, by rw [if_pos (hcovers.2 (.inl hm))], by rw [if_pos hhas]⟩
  · rw [if_neg hm] at h
    obtain ⟨q, hq, h⟩ := Option.bind_eq_some_iff.1 h
    have hhas : hasCkpt V.cfg.P c.n c.d vc = true ↔ q = some c.d := by simp [hasCkpt, hq]
    have hiff : byCkpt.covers (c.n, c.d) (stable V.cfg.P vc) = true ↔ vc.ls < c.n :=
      hcovers.trans (or_iff_right hm)
    cases h
    by_cases h1 : q = some c.d
    · by_cases h2 : vc.ls < c.n
      · exact ⟨by simp [h1, h2], by simp [h1, h2], by simp [h1, h2, hiff.2 h2], by
          simp [h1, h2, hhas.2 h1]⟩
      · exact ⟨by simp [h1, h2], by simp [h1, h2], by simp [h1, h2, mt hiff.1 h2], by
          simp [h1, h2, hhas.2 h1]⟩
    · by_cases h2 : vc.ls < c.n
      · exact ⟨by simp [h1, h2], by simp [h1, h2], by simp [h1, h2, hiff.2 h2], by
          simp [h1, h2, mt hhas.1 h1]⟩
      · exact ⟨by simp [h1, h2], by simp [h1, h2], by simp [h1, h2, mt hiff.1 h2], by
          simp [h1, h2, mt hhas.1 h1]⟩

/-- The checkpoints in a summary have digests. -/
theorem Ckpted.digest {P : Params} {ckpts : List CkptSum} {W : List ViewChange}
    (h : Ckpted P ckpts W) :
    ∀ c ∈ ckpts, c.d.isZero = false := by
  intro c hc
  have hmem : (c.n, c.d) ∈ (byCkpt.entries (W.map (stable P))).map Prod.fst := by
    rw [← h.entries]
    exact List.mem_map.2 ⟨ckptEntry c, List.mem_map.2 ⟨c, hc, rfl⟩, rfl⟩
  simpa [byCkpt] using (Summary.mem_keys.1 hmem).2

/-- All candidates count the view-change, one after the other. -/
theorem CountedIn.all {P : Params} {vc : ViewChange} {ckpts ckpts' : List CkptSum}
    {W : List ViewChange} (h : Ckpted P ckpts W) (hlen : ckpts'.length = ckpts.length)
    (hget : ∀ (k : Nat) c', ckpts'[k]? = some c' → ∃ c, ckpts[k]? = some c ∧ CountedIn P vc c c') :
    ckpts'.map ckptEntry = (byCkpt.entries (W.map (stable P))).map (byCkpt.bump (stable P vc)) ∧
      ∀ c ∈ ckpts', c.nProofs = (W ++ [vc]).countP (hasCkpt P c.n c.d) := by
  constructor
  · rw [← h.entries]
    refine List.ext_getElem? fun k => ?_
    simp only [List.getElem?_map]
    cases hk : ckpts'[k]? with
    | none =>
      have hlt := List.getElem?_eq_none_iff.1 hk
      rw [List.getElem?_eq_none (by omega)]
      rfl
    | some c' =>
      obtain ⟨c, hc, hcount⟩ := hget k c' hk
      rw [hc]
      simp only [Option.map_some, Summary.bump, ckptEntry, hcount.n, hcount.d, hcount.nLe]
  · intro c' hc'
    obtain ⟨k, hk⟩ := List.mem_iff_getElem?.1 hc'
    obtain ⟨c, hc, hcount⟩ := hget k c' hk
    rw [List.countP_append, List.countP_singleton, hcount.nProofs, hcount.n, hcount.d,
      h.proofs c (List.mem_of_getElem? hc)]

/-- The search through the view-changes in the message. -/
theorem ckptProofs_eq {n : Int} {d : Digest} {k : Nat} (h : ckptProofs V s n d = some k) :
    k = (List.range V.cfg.n).countP fun j => s.inNewView V.cfg j &&
      (s.vcOf j).any (hasCkpt V.cfg.P n d) := by
  have hfold : ∀ (l : List Nat) (a : Nat), l.foldlM (fun k i =>
      if s.inNewView V.cfg i then do
        let c ← (← s.vcOf i).ckpt V.cfg.P n
        some (if c = some d then k + 1 else k)
      else some k) a = some k →
      k = a + l.countP fun j => s.inNewView V.cfg j && (s.vcOf j).any (hasCkpt V.cfg.P n d) := by
    intro l
    induction l with
    | nil =>
      intro a ha
      cases ha
      rfl
    | cons i l ih =>
      intro a ha
      simp only [List.foldlM_cons, Option.bind_eq_bind, Option.bind_eq_some_iff] at ha
      obtain ⟨a', ha', hl⟩ := ha
      rw [ih a' hl, List.countP_cons]
      split at ha'
      · rename_i hin
        simp only [Option.bind_eq_some_iff] at ha'
        obtain ⟨vc, hvc, c, hc, heq⟩ := ha'
        cases heq
        by_cases hcd : c = some d
        · simp [hcd, hin, hvc, hasCkpt, hc]
          omega
        · simp [hcd, hin, hvc, hasCkpt, hc]
      · rename_i hin
        cases ha'
        simp [hin]
  simpa using hfold _ _ h

/-- The order does not matter for a count. -/
theorem countP_order {F : Nat → Option ViewChange} {p : Nat → Bool} {L : List Nat}
    {n : Nat} (hL : L.Nodup) (hmem : ∀ j, j ∈ L ↔ p j = true ∧ j < n) (q : ViewChange → Bool) :
    (L.filterMap F).countP q = (List.range n).countP fun j => p j && (F j).any q := by
  have hperm : L.Perm ((List.range n).filter p) := by
    refine (List.perm_ext_iff_of_nodup hL (List.nodup_range.filter _)).2 fun j => ?_
    rw [hmem, List.mem_filter, List.mem_range, and_comm]
  rw [(hperm.filterMap F).countP_eq, List.countP_filterMap, List.countP_filter]
  refine List.countP_congr fun j _ => ?_
  cases F j <;> simp [and_comm]

theorem Rowed.ckpts {l : List Nat} (h : Rowed cfg s l) (hs : t = { s with ckpts := t.ckpts })
    (hn : ∀ (k : Nat) c, s.ckpts[k]? = some c → ∃ c', t.ckpts[k]? = some c' ∧ c'.n = c.n) :
    Rowed cfg t l := by
  rw [hs]
  refine ⟨h.stored, h.summed, h.named, h.unchosen, fun k hk => ?_, h.rows⟩
  obtain ⟨c, hc, hcn⟩ := h.least k hk
  obtain ⟨c', hc', hcn'⟩ := hn k c hc
  exact ⟨c', hc', hcn'.trans hcn⟩

/-- While `summarize` goes through the candidates: a checkpoint may be chosen, and another one
later. -/
structure Going (cfg : Cfg) (s : NVInfo) (l : List Nat) (t : NVInfo) : Prop where
  rowed : Rowed cfg t (orderOf cfg s.chosenCkpt.isSome l t)
  v : t.v = s.v
  vcOf : t.vcOf = s.vcOf
  named : t.inNewView cfg = s.inNewView cfg
  chosen : s.chosenCkpt.isSome = true → t.chosenCkpt.isSome = true ∧ ∀ j,
    (t.vcs j).reqSum = (s.vcs j).reqSum

theorem Rowed.going {l : List Nat} (h : Rowed cfg s l) : Going cfg s l s := by
  refine ⟨?_, rfl, rfl, rfl, fun hs => ⟨hs, fun _ => rfl⟩⟩
  cases hc : s.chosenCkpt with
  | some k => exact h
  | none =>
    have hl := (h.unchosen hc).2
    have hsorted : sorted cfg s = l := by
      rw [hl]
      refine List.filter_eq_nil_iff.2 fun j _ hj => ?_
      have := (h.summed j).2 hj
      simp [hl] at this
    rw [orderOf]
    simp only [Option.isSome_none, Bool.false_eq_true, if_false, hsorted]
    exact h

/-- A candidate that has enough proofs is chosen. -/
theorem Going.choose {l : List Nat} (h : Going V.cfg s l t) (index : Nat) :
    Ensures (chooseCkpt V index) t (fun _ u => Going V.cfg s l u ∧ u.ckpts = t.ckpts)
      fun _ => True := by
  refine Reaches.mono (chooseCkpt_rowed h.rowed index)
    fun _ u ⟨hr, hcho⟩ => ⟨⟨?_, hcho.v.trans h.v, hcho.vcOf.trans h.vcOf,
    hcho.named.trans h.named, fun hs => ?_⟩, hcho.ckpts⟩
  · by_cases hs : s.chosenCkpt.isSome = true
    · have ht := (h.chosen hs).1
      simp only [orderOf, hs, ht, if_true] at hr ⊢
      exact hr
    · simp only [orderOf, hs] at hr ⊢
      by_cases ht : t.chosenCkpt.isSome = true
      · rw [if_pos ht] at hr
        rw [sorted_congr (hcho.chosen ht).2]
        simpa using hr
      · rw [if_neg ht] at hr
        simpa using hr
  · have ht := h.chosen hs
    have hu := hcho.chosen ht.1
    exact ⟨hu.1, fun j => (hu.2 j).trans (ht.2 j)⟩

theorem Going.ckpts {l : List Nat} (h : Going cfg s l t) (hu : u = { t with ckpts := u.ckpts })
    (hn : ∀ (k : Nat) c, t.ckpts[k]? = some c → ∃ c', u.ckpts[k]? = some c' ∧ c'.n = c.n) :
    Going cfg s l u := by
  have hr := h.rowed.ckpts hu hn
  have horder : orderOf cfg s.chosenCkpt.isSome l u = orderOf cfg s.chosenCkpt.isSome l t := by
    rw [hu]
    rfl
  refine ⟨by rw [horder]; exact hr, ?_, ?_, ?_, ?_⟩
  · rw [hu]
    exact h.v
  · rw [hu]
    exact h.vcOf
  · rw [hu]
    exact h.named
  · rw [hu]
    exact h.chosen

/-- The loop of `summarize`. -/
theorem sumCkpts_going {l : List Nat} {W : List ViewChange} {vc : ViewChange} {o : Option Digest}
    (h : Rowed V.cfg s l) (hw : Ckpted V.cfg.P s.ckpts W) (ho : vc.ckpt V.cfg.P vc.ls = some o) :
    Ensures (each (sumCkpt V vc (o.getD 0)) (List.range s.ckpts.length)) s
      (fun _ t => Going V.cfg s l t ∧ t.ckpts.length = s.ckpts.length ∧
        ∀ (k : Nat) c', t.ckpts[k]? = some c' → ∃ c,
          s.ckpts[k]? = some c ∧ CountedIn V.cfg.P vc c c') fun _ => True := by
  let I (is : List Nat) (t : NVInfo) : Prop :=
    is.Nodup ∧ Going V.cfg s l t ∧ t.ckpts.length = s.ckpts.length ∧
    ∀ (k : Nat) c', t.ckpts[k]? = some c' → ∃ c,
      s.ckpts[k]? = some c ∧ (if k ∈ is then c' = c else CountedIn V.cfg.P vc c c')
  refine Reaches.mono (Reaches.each (I := I) ?_ _ s ?_)
    fun _ t ⟨_, hg, hlen, hget⟩ => ⟨hg, hlen, fun k c' hc' => ?_⟩
  · rintro i is t ⟨hnodup, hg, hlen, hget⟩
    obtain ⟨hi, his⟩ := List.nodup_cons.1 hnodup
    refine Reaches.get_bind (Reaches.ofOption_bind trivial
      fun cur hcur => Reaches.ofOption_bind trivial fun cur' hcur' => ?_)
    obtain ⟨c0, hc0, heq⟩ := hget i cur hcur
    rw [if_pos (by simp)] at heq
    subst heq
    have hcount := countCkpt_countedIn ho (hw.digest cur (List.mem_of_getElem? hc0)) hcur'
    have hlt := (List.getElem?_eq_some_iff.1 hcur).1
    set u : NVInfo := { t with ckpts := t.ckpts.set i cur' } with hu
    have hgu : Going V.cfg s l u := by
      refine hg.ckpts rfl fun k c hc => ?_
      by_cases hk : k = i
      · subst hk
        rw [hcur] at hc
        cases hc
        exact ⟨cur', by simp [hu, hlt], hcount.n⟩
      · exact ⟨c, by simpa [hu, List.getElem?_set_ne (Ne.symm hk)] using hc, rfl⟩
    have hgetu : ∀ (k : Nat) c', u.ckpts[k]? = some c' →
        ∃ c, s.ckpts[k]? = some c ∧ (if k ∈ is then c' = c else CountedIn V.cfg.P vc c c') := by
      intro k c' hc'
      by_cases hk : k = i
      · subst hk
        have hc' : cur' = c' := by simpa [hu, hlt] using hc'
        subst hc'
        exact ⟨cur, hc0, by rw [if_neg hi]; exact hcount⟩
      · obtain ⟨c, hc, hrest⟩ :=
          hget k c' (by simpa [hu, List.getElem?_set_ne (Ne.symm hk)] using hc')
        refine ⟨c, hc, ?_⟩
        simpa [hk] using hrest
    have hlenu : u.ckpts.length = s.ckpts.length := by simp [hu, hlen]
    refine Reaches.modify_bind trivial (Reaches.when (fun _ => ?_)
      fun _ => ⟨his, hgu, hlenu, hgetu⟩)
    refine Reaches.mono (hgu.choose i) fun _ w ⟨hgw, hck⟩ => ⟨his, hgw, ?_, ?_⟩
    · rw [hck]
      exact hlenu
    · rw [hck]
      exact hgetu
  · refine ⟨List.nodup_range, h.going, rfl, fun k c hc => ⟨c, hc, ?_⟩⟩
    have hlt := (List.getElem?_eq_some_iff.1 hc).1
    rw [if_pos (by simpa using hlt)]
  · simpa using hget k c' hc'

/-- What a primary has counted: the checkpoints of the view-changes `L`, in this order, and the
requests of `l`. -/
structure Primary (cfg : Cfg) (s : NVInfo) (L l : List Nat) : Prop where
  nodup : L.Nodup
  nodupReqs : l.Nodup
  mem : ∀ j, j ∈ L ↔ s.inNewView cfg j = true
  rowed : Rowed cfg s l
  ckpted : Ckpted cfg.P s.ckpts (L.filterMap s.vcOf)

/-- A candidate for the last stable checkpoint of the view-change, unless there is one. -/
theorem addCkpt_going {l : List Nat} {W : List ViewChange} {vc : ViewChange} {o : Option Digest}
    {before : List CkptSum} (hg : Going V.cfg s l t) (ho : vc.ckpt V.cfg.P vc.ls = some o)
    (hents : t.ckpts.map ckptEntry =
      (byCkpt.entries (W.map (stable V.cfg.P))).map (byCkpt.bump (stable V.cfg.P vc)))
    (hproofs : ∀ c ∈ t.ckpts, c.nProofs = (W ++ [vc]).countP (hasCkpt V.cfg.P c.n c.d))
    (hbefore : before.map ckptEntry = byCkpt.entries (W.map (stable V.cfg.P)))
    (hcount : ∀ n d, ((List.range V.cfg.n).countP
      fun j => t.inNewView V.cfg j && (t.vcOf j).any (hasCkpt V.cfg.P n d)) =
      (W ++ [vc]).countP (hasCkpt V.cfg.P n d)) :
    Ensures (when (!(before.any fun cur => cur.n == vc.ls && cur.d == o.getD 0) &&
          !(o.getD 0).isZero)
        (addCkpt V vc (o.getD 0) before)) t
      (fun _ u => Going V.cfg s l u ∧ Ckpted V.cfg.P u.ckpts (W ++ [vc])) fun _ => True := by
  have hkey : (byCkpt.keyed (stable V.cfg.P vc) &&
    !((byCkpt.entries (W.map (stable V.cfg.P))).any fun e =>
      decide (e.1 = stable V.cfg.P vc))) =
        (!(before.any fun cur => cur.n == vc.ls && cur.d == o.getD 0) && !(o.getD 0).isZero) := by
    rw [← hbefore, List.any_map, stable_of_ckpt ho, Bool.and_comm]
    congr 2
    refine congrArg before.any (funext fun cur => ?_)
    rw [Bool.eq_iff_iff, Function.comp_apply, decide_eq_true_iff,
      Bool.and_eq_true, beq_iff_eq, beq_iff_eq]
    exact Prod.ext_iff
  have hlower : ((byCkpt.entries (W.map (stable V.cfg.P))).filter
    fun e => byCkpt.below e.1 (stable V.cfg.P vc)).length =
      (before.filter fun cur => decide (cur.n < vc.ls)).length := by
    rw [← hbefore, List.filter_map, List.length_map, stable_of_ckpt ho]
    rfl
  have hadd : byCkpt.entries ((W ++ [vc]).map (stable V.cfg.P)) =
      byCkpt.add (byCkpt.entries (W.map (stable V.cfg.P))) (stable V.cfg.P vc) := by
    rw [List.map_append]
    exact Summary.entries_snoc
  refine Reaches.when (fun hnew => ?_) fun hnew => ?_
  · refine Reaches.get_bind (Reaches.ofOption_bind trivial fun k hk => ?_)
    have hk : k = (W ++ [vc]).countP (hasCkpt V.cfg.P vc.ls (o.getD 0)) :=
      (ckptProofs_eq hk).trans (hcount _ _)
    set ns : CkptSum := {
      n := vc.ls, d :=
        o.getD 0, nProofs := k, nLe := (before.filter fun cur => decide (cur.n < vc.ls)).length + 1
      maxSeqno := (before.filter fun cur => decide (cur.n < vc.ls)).foldl
        (fun m cur => if m < cur.maxSeqno then cur.maxSeqno else m) vc.maxSeqno
      id := vc.id } with hns
    set u : NVInfo := { t with ckpts := t.ckpts ++ [ns] } with hu
    have hgu : Going V.cfg s l u := by
      refine hg.ckpts rfl fun k c hc => ⟨c, ?_, rfl⟩
      rw [hu, List.getElem?_append_left (List.getElem?_eq_some_iff.1 hc).1]
      exact hc
    have hw : Ckpted V.cfg.P u.ckpts (W ++ [vc]) := by
      constructor
      · rw [hadd, Summary.add, hkey, hnew, if_pos rfl, hlower,
          hu, List.map_append, hents, stable_of_ckpt ho]
        rfl
      · intro c hc
        rcases List.mem_append.1 hc with hc | hc
        · exact hproofs c hc
        · rw [List.mem_singleton.1 hc]
          exact hk
    refine Reaches.modify_bind trivial (Reaches.when (fun _ => ?_) fun _ => ⟨hgu, hw⟩)
    refine Reaches.mono (hgu.choose _) fun _ w hgw => ⟨hgw.1, ?_⟩
    rw [hgw.2]
    exact hw
  · refine ⟨hg, ?_, hproofs⟩
    rw [hadd, Summary.add, hkey, hnew, if_neg Bool.false_ne_true, List.append_nil]
    exact hents

/-- **`summarize`**: one more view-change in the checkpoints, and in the rows if there are any. -/
theorem summarize_primary {L l : List Nat} {vc : ViewChange} (hL : L.Nodup) (hl : l.Nodup)
    (hnew : vc.id ∉ L) (hmem : ∀ j, s.inNewView V.cfg j = true ↔ j ∈ L ∨ j = vc.id)
    (hvc : s.vcOf vc.id = some vc) (h : Rowed V.cfg s l)
    (hw : Ckpted V.cfg.P s.ckpts (L.filterMap s.vcOf)) :
    Ensures (summarize V vc) s
      (fun _ t => Primary V.cfg t (L ++ [vc.id]) (follow V.cfg.n l fun j => (t.vcs j).reqSum) ∧
          t.v = s.v ∧ t.vcOf = s.vcOf ∧
        t.inNewView V.cfg = s.inNewView V.cfg)
      fun _ => True := by
  have hid : vc.id < V.cfg.n := (h.stored vc.id ((hmem vc.id).2 (.inr rfl))).1
  have hLn : (L ++ [vc.id]).Nodup := List.nodup_append.2 ⟨hL, by simp, fun a ha b hb => by
    rw [List.mem_singleton.1 hb]
    rintro rfl
    exact hnew ha⟩
  have hmemn : ∀ j, j ∈ L ++ [vc.id] ↔ s.inNewView V.cfg j = true := by
    intro j
    rw [hmem, List.mem_append, List.mem_singleton]
  have hlist : (L ++ [vc.id]).filterMap s.vcOf = L.filterMap s.vcOf ++ [vc] := by
    rw [List.filterMap_append]
    simp [hvc]
  refine Reaches.get_bind (Reaches.assert_bind trivial
    fun _ => Reaches.ofOption_bind trivial fun o ho => ?_)
  refine Ensures.bind (sumCkpts_going h hw ho) fun _ t ⟨hg, hlen, hget⟩ => ?_
  obtain ⟨hents, hproofs⟩ := CountedIn.all hw hlen hget
  refine Ensures.bind (addCkpt_going hg ho hents hproofs hw.entries fun n d => ?_)
    fun _ u ⟨hgu, hwu⟩ => ?_
  · rw [hg.named, hg.vcOf, ← hlist]
    refine (countP_order hLn (fun j => ?_) _).symm
    rw [hmemn]
    exact ⟨fun hj => ⟨hj, (h.stored j hj).1⟩, And.left⟩
  have hfinal : ∀ {w : NVInfo} {l' : List Nat}, Rowed V.cfg w l' →
    w.ckpts = u.ckpts → w.vcOf = s.vcOf →
      w.inNewView V.cfg = s.inNewView V.cfg → l' = follow V.cfg.n l (fun j => (w.vcs j).reqSum) →
      Primary V.cfg w (L ++ [vc.id]) (follow V.cfg.n l fun j => (w.vcs j).reqSum) := by
    intro w l' hr hck hvcw hin hl'
    refine ⟨hLn, nodup_follow hl, fun j => by rw [hin]; exact hmemn j, hl' ▸ hr, ?_⟩
    rw [hck, hvcw, hlist]
    exact hwu
  -- without a checkpoint from before, the order is that of the senders
  have hu : s.chosenCkpt.isSome = false →
      orderOf V.cfg s.chosenCkpt.isSome l u = follow V.cfg.n l (fun j => (u.vcs j).reqSum) := by
    intro hs
    have hnone : s.chosenCkpt = none := by simpa using hs
    rw [(h.unchosen hnone).2, hs]
    simp [orderOf, follow, sorted]
  -- with one, nothing was summarized yet
  have hu' : s.chosenCkpt.isSome = true → l = follow V.cfg.n l (fun j => (u.vcs j).reqSum) := by
    intro hs
    refine (follow_eq_self fun j => ?_).symm
    rw [(hgu.chosen hs).2 j]
    exact (h.summed j).symm
  refine Reaches.get_bind (Reaches.when (fun hc => ?_) fun hc => ?_)
  · have hs : s.chosenCkpt.isSome = true := (Bool.and_eq_true_iff.1 hc).1
    have hru : Rowed V.cfg u l := by
      have := hgu.rowed
      rw [orderOf, if_pos hs] at this
      exact this
    have hvcu : u.vcOf vc.id = some vc := by rw [hgu.vcOf]; exact hvc
    refine Ensures.bind (summarizeReqs_rowed hru hvcu (hgu.chosen hs).1)
      fun _ w ⟨hf, hrw, hnot⟩ => ?_
    have hvcw : w.vcOf = s.vcOf := (hf.vcOf.trans (markSum_vcOf _ _)).trans hgu.vcOf
    have hinw : w.inNewView V.cfg = s.inNewView V.cfg := hf.named.trans hgu.named
    have horder : l ++ [vc.id] = follow V.cfg.n l fun j => (w.vcs j).reqSum := by
      refine (follow_snoc (fun j => ?_) hid fun hmem => ?_).symm
      · rw [hf.reqSum, markSum_reqSum, (hgu.chosen hs).2 j, h.summed]
      · have := (hru.summed vc.id).1 hmem
        rw [hnot] at this
        cases this
    refine Reaches.modify trivial ⟨?_, hf.v.trans hgu.v, hvcw, hinw⟩
    have hp := hfinal hrw hf.ckpts hvcw hinw horder
    exact ⟨hp.nodup, hp.nodupReqs, hp.mem,
      ⟨hp.rowed.stored, hp.rowed.summed, hp.rowed.named, hp.rowed.unchosen, hp.rowed.least,
      hp.rowed.rows⟩, hp.ckpted⟩
  · refine ⟨hfinal hgu.rowed rfl hgu.vcOf hgu.named ?_, hgu.v, hgu.vcOf, hgu.named⟩
    cases hs : s.chosenCkpt.isSome with
    | true => exact hu' hs
    | false =>
      rw [← hs]
      exact hu hs

/-! ## The operations of a primary -/

theorem Primary.steady {L l : List Nat} (h : Primary V.cfg s L l) (ht : Steady V s t) :
    Primary V.cfg t L l := by
  refine ⟨h.nodup, h.nodupReqs, ?_, h.rowed.steady ht, ?_⟩
  · rw [ht.named]
    exact h.mem
  · rw [ht.ckpts, ht.vcOf]
    exact h.ckpted

theorem store_vcOf (m : ViewChange) (j : Nat) :
    (s.store m).vcOf j = if j = m.id then some m else s.vcOf j := by
  by_cases hj : j = m.id
  · simp [NVInfo.store, NVInfo.vcOf, hj]
  · simp [NVInfo.store, NVInfo.vcOf, hj]

theorem store_reqSum (m : ViewChange) (j : Nat) :
    ((s.store m).vcs j).reqSum = (s.vcs j).reqSum := by
  by_cases hj : j = m.id
  · simp [NVInfo.store, hj]
  · simp [NVInfo.store, hj]

/-- A view-change that is stored is not counted yet. -/
theorem Primary.store {L l : List Nat} (h : Primary cfg s L l) {m : ViewChange}
    (hn : s.vcOf m.id = none) :
    Primary cfg (s.store m) L l := by
  have hsame : ∀ j, s.inNewView cfg j = true → (s.store m).vcOf j = s.vcOf j := by
    intro j hj
    obtain ⟨-, vc, hvc, -⟩ := h.rowed.stored j hj
    rw [store_vcOf, if_neg]
    rintro rfl
    rw [hn] at hvc
    cases hvc
  have hlist : ∀ l' : List Nat, (∀ j ∈ l', s.inNewView cfg j = true) →
    l'.filterMap (s.store m).vcOf = l'.filterMap s.vcOf :=
    fun l' hl' => List.filterMap_congr fun j hj => hsame j (hl' j hj)
  refine ⟨h.nodup, h.nodupReqs, h.mem,
    ⟨fun j hj => ?_, fun j => ?_, fun j hj => ?_, h.rowed.unchosen, h.rowed.least, ?_⟩, ?_⟩
  · rw [hsame j hj]
    exact h.rowed.stored j hj
  · rw [store_reqSum]
    exact h.rowed.summed j
  · rw [store_reqSum] at hj
    exact h.rowed.named j hj
  · rw [hlist l fun j hj => h.rowed.named j ((h.rowed.summed j).1 hj)]
    exact h.rowed.rows
  · rw [hlist L fun j hj => (h.mem j).1 hj]
    exact h.ckpted

/-- One more view-change in the message. -/
theorem inNewView_add {m m' : NewView} {a : Nat} {d : Digest} (hm : s.nv = some m)
    (ha : m.addViewChange cfg a d = some m') (hd : d.isZero = false) : s.inNewView cfg a = false ∧
      ∀ j, NVInfo.inNewView cfg { s with nv := some m' } j = true ↔
        s.inNewView cfg j = true ∨ j = a := by
  simp only [NewView.addViewChange, Option.ite_none_right_eq_some] at ha
  obtain ⟨⟨hlt, hz⟩, heq⟩ := ha
  cases heq
  constructor
  · have hnone : m.viewChange cfg a = none := by
      rw [NewView.viewChange, hz, if_neg]
      rintro ⟨-, h0⟩
      cases h0
    simp [inNewView, hm, hnone]
  · intro j
    by_cases hj : j = a
    · simp [inNewView, NewView.viewChange, hj, hlt, hd]
    · simp [inNewView, hm, NewView.viewChange, hj]

/-- What a primary has counted after an operation, given the orders of before. -/
abbrev Next (cfg : Cfg) (L l : List Nat) (t : NVInfo) : Prop :=
  Primary cfg t (follow cfg.n L (t.inNewView cfg)) (follow cfg.n l fun j => (t.vcs j).reqSum)

theorem Primary.next {L l : List Nat} (h : Primary cfg s L l) : Next cfg L l s := by
  have h1 : follow cfg.n L (s.inNewView cfg) = L := follow_eq_self fun j => (h.mem j).symm
  have h2 : (follow cfg.n l fun j => (s.vcs j).reqSum) = l :=
    follow_eq_self fun j => (h.rowed.summed j).symm
  rw [Next, h1, h2]
  exact h

theorem addToNewView_primary {L l : List Nat} {vc : ViewChange} (h : Primary V.cfg s L l)
    (hvc : s.vcOf vc.id = some vc) (hid : vc.id < V.cfg.n)
    (hd : (V.cfg.vcDigest vc).isZero = false) :
    Ensures (addToNewView V vc) s
      (fun _ t => Next V.cfg L l t ∧ t.v = s.v ∧ t.vcOf = s.vcOf ∧
        ∀ j, t.inNewView V.cfg j = true → s.inNewView V.cfg j = true ∨ j = vc.id)
      fun _ => True := by
  refine Reaches.get_bind (Reaches.ofOption_bind trivial
    fun m' hm' => Reaches.modify_bind trivial ?_)
  obtain ⟨m, hm, ha⟩ := Option.bind_eq_some_iff.1 hm'
  obtain ⟨hout, hin⟩ := inNewView_add hm ha hd
  set s1 : NVInfo := { s with nv := some m' } with hs1
  have hnew : vc.id ∉ L := by
    rw [h.mem, hout]
    exact Bool.false_ne_true
  have hmem : ∀ j, s1.inNewView V.cfg j = true ↔ j ∈ L ∨ j = vc.id := by
    intro j
    rw [hin, h.mem]
  have hrowed : Rowed V.cfg s1 l := by
    refine ⟨fun j hj => ?_, h.rowed.summed, fun j hj => (hin j).2 (.inl (h.rowed.named j hj)),
      h.rowed.unchosen, h.rowed.least,
      h.rowed.rows⟩
    rcases (hin j).1 hj with hj | rfl
    · exact h.rowed.stored j hj
    · exact ⟨hid, vc, hvc, rfl⟩
  refine Reaches.mono (summarize_primary h.nodup h.nodupReqs hnew hmem hvc hrowed h.ckpted)
    fun _ t ⟨hp, hv, hF, hn⟩ =>
    ⟨?_, hv, hF, fun j hj => ?_⟩
  · have horder : follow V.cfg.n L (t.inNewView V.cfg) = L ++ [vc.id] := by
      rw [hn]
      exact follow_snoc hmem hid hnew
    rw [Next, horder]
    exact hp
  · rw [hn] at hj
    exact (hin j).1 hj

/-! ## The operations of a backup -/

/-- The view-changes of the view stay. -/
def Held (v : Int) (F : Nat → Option ViewChange) (s : NVInfo) : Prop := s.v = v ∧ s.vcOf = F

variable (V) in
theorem held_of_calm {α : Type} {x : Prog NVInfo α} (hx : ∀ s, Calm V x s) (v : Int)
    (F : Nat → Option ViewChange) :
    Holds (Held v F) (fun _ => True) x := fun s hs =>
  Reaches.mono (hx s) fun _ _ ht => ⟨ht.toQuiet.v.trans hs.1, ht.toQuiet.vcOf.trans hs.2⟩

variable (V) in
theorem checkReq_held (v : Int) (F : Nat → Option ViewChange) (i : Int) :
    Holds (Held v F) (fun _ => True) (checkReq V i) := by
  refine Holds.get_bind fun s => Holds.ofOption_bind (fun _ _ => trivial)
    fun vc => Holds.ite (fun _ => Holds.pure) fun _ => ?_
  refine Holds.ofOption_bind (fun _ _ => trivial)
    fun k => Holds.ofOption_bind (fun _ _ => trivial) fun r => ?_
  refine Holds.ofOption_bind (fun _ _ => trivial)
    fun cur => Holds.modify_bind (fun _ h => h) (Holds.ite (fun _ => ?_) fun _ => Holds.pure)
  exact Holds.bind (held_of_calm V (fun t => checkComp_calm t i 0) v F) fun _ => Holds.pure

variable (V) in
theorem checkNewView_held (v : Int) (F : Nat → Option ViewChange) :
    Holds (Held v F) (fun _ => True) (checkNewView V) := by
  refine Holds.get_bind fun s => Holds.assert_bind (fun _ _ => trivial)
    fun _ => Holds.ofOption_bind (fun _ _ => trivial) fun nv => ?_
  refine Holds.ofOption_bind (fun _ _ => trivial)
    fun cid => Holds.ofOption_bind (fun _ _ => trivial) fun vc => ?_
  refine Holds.modify_bind (fun _ h => h) (Holds.ite (fun _ => Holds.pure)
    fun _ => Holds.modify_bind (fun _ h => h) ?_)
  refine Holds.ofOption_bind (fun _ _ => trivial) fun c => ?_
  cases c with
  | none => exact Holds.pure
  | some d =>
    refine Holds.get_bind fun s => Holds.ofOption_bind (fun _ _ => trivial)
      fun p => Holds.ite (fun _ => Holds.pure) fun _ => ?_
    refine Holds.modify_bind (fun _ h => h) (Holds.get_bind
      fun s => Holds.ite (fun _ => Holds.pure) fun _ => ?_)
    refine Holds.modify_bind (fun _ h => h) (Holds.ite (fun _ => ?_) fun _ => ?_)
    · refine Holds.modify_bind (fun _ h => h) (Holds.get_bind
        fun s => Holds.ofOption_bind (fun _ _ => trivial) fun ks => ?_)
      exact Holds.modify_bind (fun _ h => h) Holds.pure
    · refine Holds.modify_bind (fun _ h => h) (Holds.get_bind fun s => ?_)
      exact Holds.bind (Holds.eachUntil (checkReq_held V v F) _) fun _ => Holds.pure

/-! ## What a run keeps -/

/-- Nothing is stored, summarized or chosen. -/
structure Blank (s : NVInfo) : Prop where
  vcOf : ∀ j, s.vcOf j = none
  reqSum : ∀ j, (s.vcs j).reqSum = false
  ckpts : s.ckpts = []
  chosen : s.chosenCkpt = none
  reqs : s.reqs = []

theorem blank_clear (s : NVInfo) : Blank s.clear := ⟨fun _ => rfl, fun _ => rfl, rfl, rfl, rfl⟩

theorem Blank.steady (h : Blank s) (ht : Steady V s t) : Blank t := by
  have hf := ht.framed
  have hrows : t.reqs.isEmpty = s.reqs.isEmpty := congrArg Sig.noRows ht.sig
  rw [h.reqs] at hrows
  refine ⟨fun j => ?_, fun j => ?_, hf.ckpts.trans h.ckpts,
    hf.chosen.trans h.chosen, by simpa using hrows⟩
  · rw [hf.vcOf]
    exact h.vcOf j
  · rw [hf.reqSum]
    exact h.reqSum j

theorem follow_false {n : Nat} {l : List Nat} {p : Nat → Bool} (hp : ∀ j, p j = false) :
    follow n l p = [] := by
  simp [follow, hp]

/-- Of a single member the order does not depend on those of before. -/
theorem follow_single {n a : Nat} {l : List Nat} {p : Nat → Bool} (hp : ∀ j, p j = true → j = a)
    (hl : l.Nodup) (ha : a < n) :
    follow n l p = follow n [] p := by
  have hlt : ∀ j, p j = true → j < n := by
    intro j hj
    rw [hp j hj]
    exact ha
  have hone : ∀ l' : List Nat, l'.Nodup → (∀ j, j ∈ l' ↔ p j = true) →
    l' = if p a then [a] else [] := by
    intro l' hn hmem
    by_cases hpa : p a = true
    · rw [if_pos hpa]
      refine List.perm_singleton.1
        ((List.perm_ext_iff_of_nodup hn (List.nodup_singleton a)).2 fun j => ?_)
      rw [hmem, List.mem_singleton]
      exact ⟨hp j, by rintro rfl; exact hpa⟩
    · rw [if_neg hpa]
      refine List.eq_nil_iff_forall_not_mem.2 fun j hj => hpa ?_
      have hj := (hmem j).1 hj
      rw [← hp j hj]
      exact hj
  rw [hone _ (nodup_follow hl) fun j => mem_follow hlt,
    hone _ (nodup_follow List.nodup_nil) fun j => mem_follow hlt]

theorem Blank.primary (h : Blank s) (hn : ∀ j, s.inNewView cfg j = false) :
    Primary cfg s [] [] := by
  refine ⟨List.nodup_nil, List.nodup_nil, fun j => by simp [hn],
    ⟨fun j hj => ?_, fun j => by simp [h.reqSum], fun j hj => ?_,
    fun _ => ⟨h.reqs, rfl⟩, fun k hk => ?_, fun _ i _ _ => ?_⟩, ?_⟩
  · rw [hn] at hj
    cases hj
  · rw [h.reqSum] at hj
    cases hj
  · rw [h.chosen] at hk
    cases hk
  · simp [rowOf, h.reqs, row, requests, Summary.entries]
  · rw [h.ckpts]
    exact ⟨rfl, fun c hc => by cases hc⟩

theorem Blank.next (h : Blank s) (hn : ∀ j, s.inNewView cfg j = false) (L l : List Nat) :
    Next cfg L l s := by
  rw [Next, follow_false hn, follow_false h.reqSum]
  exact h.primary hn

/-- The stored view-changes are filed under their senders and have a digest. -/
def Filed (cfg : Cfg) (F : Nat → Option ViewChange) : Prop :=
  ∀ j vc, F j = some vc → vc.id = j ∧ j < cfg.n ∧ (cfg.vcDigest vc).isZero = false

theorem Filed.store (h : Filed cfg s.vcOf) {m : ViewChange} (hid : m.id < cfg.n)
    (hd : (cfg.vcDigest m).isZero = false) :
    Filed cfg (s.store m).vcOf := by
  intro j vc hvc
  rw [store_vcOf] at hvc
  split at hvc
  · rename_i hj
    cases hvc
    exact ⟨hj.symm, hj ▸ hid, hd⟩
  · exact h j vc hvc

/-- What a run keeps, if the orders are those of before the last operation. -/
structure Follows (cfg : Cfg) (id : Nat) (L l : List Nat) (s : NVInfo) : Prop where
  filed : Filed cfg s.vcOf
  zero : s.v = 0 → Blank s ∧ ∀ j, s.inNewView cfg j = false
  primary : cfg.primary s.v = id → Next cfg L l s

/-- What a run keeps. -/
structure Told (cfg : Cfg) (id : Nat) (σ : Traced) : Prop where
  nodup : σ.nvOrder.Nodup
  nodupReqs : σ.reqOrder.Nodup
  filed : Filed cfg σ.s.vcOf
  zero : σ.s.v = 0 → Blank σ.s ∧ ∀ j, σ.s.inNewView cfg j = false
  primary : cfg.primary σ.s.v = id → Primary cfg σ.s σ.nvOrder σ.reqOrder

theorem Told.follows {σ : Traced} (h : Told cfg id σ) : Follows cfg id σ.nvOrder σ.reqOrder σ.s :=
  ⟨h.filed, h.zero, fun hp => (h.primary hp).next⟩

/-- Nothing is counted. -/
theorem Told.steady {σ : Traced} (h : Told V.cfg V.id σ) (ht : Steady V σ.s t) :
    Follows V.cfg V.id σ.nvOrder σ.reqOrder t := by
  refine ⟨?_, fun hz => ⟨(h.zero ?_).1.steady ht, ?_⟩, fun hp => ((h.primary ?_).steady ht).next⟩
  · rw [ht.toQuiet.vcOf]
    exact h.filed
  · rw [← ht.toQuiet.v]
    exact hz
  · rw [ht.named]
    exact (h.zero (by rw [← ht.toQuiet.v]; exact hz)).2
  · rw [← ht.toQuiet.v]
    exact hp

theorem follows_clear (s : NVInfo) (L l : List Nat) : Follows cfg id L l s.clear := by
  have hn : ∀ j, s.clear.inNewView cfg j = false := fun _ => rfl
  exact ⟨fun j vc hvc => (by cases hvc), fun _ => ⟨blank_clear s, hn⟩,
    fun _ => (blank_clear s).next hn L l⟩

/-- **`add(View_change*)`** -/
theorem addViewChange_follows {σ : Traced} (h : Told V.cfg V.id σ) (m : ViewChange)
    (verified digestOk : Bool) (hpos : m.v = σ.s.v → σ.s.v ≠ 0)
    (hd : (V.cfg.vcDigest m).isZero = false) :
    Ensures (NVInfo.addViewChange V m verified digestOk) σ.s
      (fun _ t => Follows V.cfg V.id σ.nvOrder σ.reqOrder t ∧ t.v = σ.s.v ∧
        (V.cfg.primary σ.s.v = V.id → ∀ j, t.inNewView V.cfg j = true →
          σ.s.inNewView V.cfg j = true ∨ j = m.id))
      fun _ => True := by
  have hsame : Follows V.cfg V.id σ.nvOrder σ.reqOrder σ.s ∧ σ.s.v = σ.s.v ∧
      (V.cfg.primary σ.s.v = V.id → ∀ j, σ.s.inNewView V.cfg j = true →
        σ.s.inNewView V.cfg j = true ∨ j = m.id) :=
    ⟨h.follows, rfl, fun _ j hj => .inl hj⟩
  refine Reaches.get_bind (Reaches.assert_bind trivial
    fun hm => Reaches.ite (fun _ => Reaches.pure hsame) fun hnew => ?_)
  obtain ⟨hv, hid⟩ : m.v = σ.s.v ∧ m.id < V.cfg.n := by simpa using hm
  obtain ⟨hnone, -⟩ : σ.s.vcOf m.id = none ∧ σ.s.isComplete = false := by simpa using hnew
  refine Reaches.ofOption_bind trivial fun named _ =>
    Reaches.ite (fun _ => Reaches.pure hsame) fun _ => ?_
  refine Reaches.ite (fun _ => Reaches.pure hsame) fun _ => Reaches.modify_bind trivial ?_
  have hfiled : Filed V.cfg (σ.s.store m).vcOf := h.filed.store hid hd
  have hz : σ.s.v ≠ 0 := hpos hv
  refine Ensures.bind (Q := fun _ t => Follows V.cfg V.id σ.nvOrder σ.reqOrder t ∧ t.v = σ.s.v ∧
    (V.cfg.primary σ.s.v = V.id → ∀ j, t.inNewView V.cfg j = true →
      σ.s.inNewView V.cfg j = true ∨ j = m.id)) ?_
    fun _ t ht => Reaches.pure ht
  refine Reaches.get_bind (Reaches.ite (fun hp => ?_) fun hp => ?_)
  · have hprim : V.cfg.primary σ.s.v = V.id := isPrimary_iff.1 hp
    have hst := (h.primary hprim).store hnone
    have hvc : (σ.s.store m).vcOf m.id = some m := by
      rw [store_vcOf, if_pos rfl]
    refine Reaches.when (fun _ => ?_) fun _ =>
      ⟨⟨hfiled, fun h0 => absurd h0 hz, fun _ => hst.next⟩, rfl, fun _ j hj => .inl hj⟩
    refine Reaches.mono (addToNewView_primary hst hvc hid hd) fun _ t ⟨ht, htv, hF, hin⟩ =>
      ⟨⟨?_, fun h0 => absurd (htv.symm.trans h0) hz, fun _ => ht⟩, htv, fun _ => hin⟩
    rw [hF]
    exact hfiled
  · have hne : V.cfg.primary σ.s.v ≠ V.id := fun heq => hp (isPrimary_iff.2 heq)
    have hheld : ∀ {t : NVInfo}, Held σ.s.v (σ.s.store m).vcOf t →
      Follows V.cfg V.id σ.nvOrder σ.reqOrder t ∧ t.v = σ.s.v ∧
        (V.cfg.primary σ.s.v = V.id → ∀ j, t.inNewView V.cfg j = true →
          σ.s.inNewView V.cfg j = true ∨ j = m.id) := by
      rintro t ⟨htv, hF⟩
      refine ⟨⟨?_, fun h0 => absurd (htv.symm.trans h0) hz, fun hp' => ?_⟩,
        htv, fun hp' => absurd hp' hne⟩
      · rw [hF]
        exact hfiled
      · rw [htv] at hp'
        exact absurd hp' hne
    refine Reaches.when (fun _ => ?_) fun _ => hheld ⟨rfl, rfl⟩
    exact Ensures.bind (checkNewView_held V σ.s.v _ _ ⟨rfl, rfl⟩)
      fun _ t ht => Reaches.pure (hheld ht)

/-- **`add(View_change_ack*)`** -/
theorem addAck_follows {σ : Traced} (h : Told V.cfg V.id σ) (m : ViewChangeAck) (hpos : m.v ≠ 0) :
    Ensures (NVInfo.addAck V m) σ.s (fun _ t => Follows V.cfg V.id σ.nvOrder σ.reqOrder t)
      fun _ => True := by
  refine Reaches.get_bind (Reaches.assert_bind trivial
    fun hm => Reaches.ite (fun _ => Reaches.pure h.follows) fun _ => ?_)
  have hv : m.v = σ.s.v := by simpa using hm
  refine Reaches.ofOption_bind trivial fun nv _ => ?_
  cases ackDigest V σ.s nv m.vcid with
  | none => exact Reaches.pure h.follows
  | some d =>
    refine Ensures.bind (Q := fun _ t => Follows V.cfg V.id σ.nvOrder σ.reqOrder t)
      (Reaches.when (fun _ => ?_) fun _ => h.follows)
      fun _ t ht => Reaches.pure ht
    set u : NVInfo :=
      { σ.s with vcs := Function.update σ.s.vcs m.vcid (VCInfo.ack (σ.s.vcs m.vcid) m.id) } with hu
    have hsteady : Steady V σ.s u := by
      refine ⟨quiet_of_eq ?_ rfl rfl rfl fun _ => rfl, rfl, rfl, rfl, rfl, rfl, fun h => h⟩
      simp only [sig, Sig.mk.injEq, hu, true_and]
      refine ⟨?_, rfl⟩
      ext1 j
      by_cases hj : j = m.vcid
      · simp [hj, VCInfo.ack]
      · simp [hj]
    have hfollows := h.steady hsteady
    refine Reaches.modify_bind trivial
      (Reaches.get_bind (Reaches.when (fun hc => ?_) fun _ => hfollows))
    refine Reaches.ofOption_bind trivial fun vc hvc => ?_
    have hp : V.cfg.primary σ.s.v = V.id := isPrimary_iff.1 (Bool.and_eq_true_iff.1 hc).2
    obtain ⟨hid, hlt, hd⟩ := hfollows.filed _ _ hvc
    have hvc' : u.vcOf vc.id = some vc := by
      rw [hid]
      exact hvc
    refine Reaches.mono (addToNewView_primary ((h.primary hp).steady hsteady) hvc' (hid ▸ hlt) hd)
      fun _ t hadd => ?_
    obtain ⟨ht, htv, hF, -⟩ := hadd
    refine ⟨?_, fun h0 => ?_, fun _ => ht⟩
    · rw [hF]
      exact hfollows.filed
    · have hzero : σ.s.v = 0 := htv.symm.trans h0
      exact absurd (hv.trans hzero) hpos

/-- A message for a later view: nothing is left of the one before. -/
theorem addNewView_blank (hz : s.v = 0 → Blank s) (m : NewView) :
    Ensures (NVInfo.addNewView V m) s
      (fun _ t => t = s ∨ Blank t ∧ t.v = m.v ∧ t.nv = some m) fun _ => True := by
  refine Reaches.get_bind (Reaches.ite (fun _ => Reaches.pure (.inl rfl)) fun _ => ?_)
  refine Ensures.bind (Q := fun _ t => Blank t)
    (Reaches.when (fun _ => Reaches.modify trivial (blank_clear s)) fun hv => ?_) ?_
  · exact hz (by simpa using hv)
  · intro _ t ht
    exact Reaches.modify_bind trivial
      (Reaches.pure (.inr ⟨⟨ht.vcOf, ht.reqSum, ht.ckpts, ht.chosen, ht.reqs⟩, rfl, rfl⟩))

/-- The message of a primary is empty. -/
theorem Blank.told (h : Blank s) (hv : s.v ≠ 0)
    (hn : V.cfg.primary s.v = V.id → ∀ j, s.inNewView V.cfg j = false) :
    Told V.cfg V.id ⟨s, [], []⟩ := by
  refine ⟨List.nodup_nil, List.nodup_nil, fun j vc hvc =>
    ?_, fun h0 => absurd h0 hv, fun hp => h.primary (hn hp)⟩
  have hvc : s.vcOf j = some vc := hvc
  rw [h.vcOf] at hvc
  cases hvc

theorem inNewView_new (hnv : s.nv = some (NewView.new s.v)) (j : Nat) :
    s.inNewView cfg j = false := by
  have hnone : (NewView.new s.v).viewChange cfg j = none := by
    rw [NewView.viewChange, if_neg]
    rintro ⟨-, h0⟩
    cases h0
  simp [inNewView, hnv, hnone]

theorem addNewView_follows {σ : Traced} (h : Told V.cfg V.id σ) (m : NewView) (hpos : m.v ≠ 0)
    (hm : V.cfg.primary m.v = V.id → m = NewView.new m.v) :
    Ensures (NVInfo.addNewView V m) σ.s (fun _ t => Follows V.cfg V.id σ.nvOrder σ.reqOrder t)
      fun _ => True := by
  refine Reaches.mono (addNewView_blank (fun hz => (h.zero hz).1) m) fun _ t ht => ?_
  rcases ht with rfl | ⟨hb, hv, hnv⟩
  · exact h.follows
  · refine ⟨fun j vc hvc => ?_, fun h0 => absurd (hv.symm.trans h0) hpos,
      fun hp => hb.next (fun j => ?_) _ _⟩
    · rw [hb.vcOf] at hvc
      cases hvc
    · rw [hv] at hp
      refine inNewView_new ?_ j
      rw [hnv, hv, ← hm hp]

theorem Next.single {L l : List Nat} {a : Nat} (h : Next cfg [] [] s) (hL : L.Nodup) (hl : l.Nodup)
    (ha : a < cfg.n) (hone : ∀ j, s.inNewView cfg j = true → j = a) : Next cfg L l s := by
  have hreq : ∀ j, (s.vcs j).reqSum = true → j = a := fun j hj => hone j (h.rowed.named j hj)
  rw [Next, follow_single hone hL ha, follow_single hreq hl ha]
  exact h

/-- **`mark_stale`** -/
theorem markStale_follows {σ : Traced} (h : Told V.cfg V.id σ) :
    Ensures (NVInfo.markStale V) σ.s (fun _ t => Follows V.cfg V.id σ.nvOrder σ.reqOrder t)
      fun _ => True := by
  refine Reaches.get_bind (Reaches.ite (fun _ => Reaches.pure h.follows)
    fun _ => Reaches.modify_bind trivial ?_)
  refine Reaches.ite (fun hp => ?_) fun _ => Reaches.pure (follows_clear σ.s _ _)
  refine Ensures.bind (Q := fun _ t => Follows V.cfg V.id σ.nvOrder σ.reqOrder t) ?_
    fun _ t ht => Reaches.pure ht
  refine Ensures.bind (Q := fun _ t => Blank t ∧ t.v = σ.s.v ∧
    t.nv = some (NewView.new σ.s.v)) ?_ ?_
  · refine Ensures.of_result (fun b _ => ?_) fun _ => trivial
    have happly : NVInfo.addNewView V (NewView.new σ.s.v) σ.s.clear =
        (some true, started V.cfg (NewView.new σ.s.v) σ.s.calls) := by
      rw [addNewView_eq _ fun _ => rfl, if_neg]
      · rfl
      · have h1 : (σ.s.clear).v = 0 := rfl
        have h2 : (NewView.new σ.s.v).v = σ.s.v := rfl
        rw [h1, h2]
        omega
    rw [happly]
    exact ⟨⟨fun _ => rfl, fun _ => rfl, rfl, rfl, rfl⟩, rfl, rfl⟩
  rintro _ t ⟨hb, hv, hnv⟩
  have hz : t.v ≠ 0 := by omega
  have hn : ∀ j, t.inNewView V.cfg j = false := inNewView_new (by rw [hnv, hv])
  have hprim : V.cfg.primary t.v = V.id := by
    rw [hv]
    exact hp.2
  refine Reaches.ofOption_bind trivial fun vc hvc => ?_
  obtain ⟨hid, hlt, hd⟩ := h.filed V.id vc hvc
  refine Ensures.bind (addViewChange_follows (hb.told hz fun _ => hn) vc true true (fun _ => hz) hd)
    fun _ u ⟨hu, huv, hin⟩ => ?_
  refine Reaches.pure ⟨hu.filed, fun h0 => absurd (huv.symm.trans h0) hz, fun hp' => ?_⟩
  refine Next.single (hu.primary hp') h.nodup h.nodupReqs (hid ▸ hlt) fun j hj => ?_
  have hj := hin hprim j hj
  rw [hn] at hj
  simpa using hj

/-- The digest of the view-change is not null. -/
def NVStep.digested (cfg : Cfg) (a : NVStep) : Bool :=
  match a.op with
  | .addViewChange m .. => !(cfg.vcDigest m).isZero
  | _ => true

theorem perform_follows {σ : Traced} (h : Told V.cfg V.id σ) (a : NVStep)
    (hv : a.op.verified V.cfg V.id = true) (hd : a.digested V.cfg = true) :
    Ensures (a.op.perform V) σ.s (fun _ t => Follows V.cfg V.id σ.nvOrder σ.reqOrder t)
      fun _ => True := by
  have hcalm : ∀ {α : Type} {x : Prog NVInfo α}, Calm V x σ.s →
      Ensures x σ.s (fun _ t => Follows V.cfg V.id σ.nvOrder σ.reqOrder t) fun _ => True :=
    fun hx => Reaches.mono hx fun _ t ht => h.steady ht
  unfold NVStep.digested at hd
  cases hop : a.op with
  | newNewView v =>
    rw [hop] at hv
    obtain ⟨-, hpos⟩ : V.cfg.primary v = V.id ∧ 0 < v := by simpa [NVOp.verified] using hv
    exact ensures_unit (addNewView_follows h (NewView.new v) hpos.ne' fun _ => rfl)
  | addNewView m =>
    rw [hop] at hv
    obtain ⟨hw, hid⟩ := Bool.and_eq_true_iff.1 hv
    have hpos : 0 < m.v := (of_decide_eq_true (Bool.and_eq_true_iff.1 hw).1).1
    refine ensures_unit (addNewView_follows h m hpos.ne' fun hp => ?_)
    rw [NewView.id, hp] at hid
    simp at hid
  | addViewChange m verified digestOk =>
    rw [hop] at hv hd
    have hpos : 0 < m.v := (of_decide_eq_true (Bool.and_eq_true_iff.1 hv).1).2.2.1
    refine ensures_unit (Reaches.mono
      (addViewChange_follows h m verified digestOk (fun heq => ?_) (by simpa using hd))
      fun _ t ht => ht.1)
    rw [← heq]
    exact hpos.ne'
  | addAck m =>
    rw [hop] at hv
    exact ensures_unit (addAck_follows h m (of_decide_eq_true hv).2.2.2.1.ne')
  | fetchRequest n => exact ensures_unit (hcalm (fetchRequest_calm σ.s n))
  | addMissing pp digestOk => exact hcalm (addMissing_calm σ.s pp digestOk)
  | addMissingPrepare p => exact hcalm (addMissingPrepare_calm σ.s p)
  | markStable ls => exact hcalm (markStable_calm σ.s ls)
  | markStale => exact ensures_unit (markStale_follows h)

/-- The order goes on, and the calls are made. -/
theorem Follows.told {L l : List Nat} (h : Follows cfg id L l u) (hL : L.Nodup) (hl : l.Nodup) :
    Told cfg id ⟨{ u with calls := [] }, follow cfg.n L (u.inNewView cfg),
        follow cfg.n l fun j => (u.vcs j).reqSum⟩ := by
  refine ⟨nodup_follow hL, nodup_follow hl, h.filed, fun hz => ?_, fun hp => ?_⟩
  · have hb := (h.zero hz).1
    exact ⟨⟨hb.vcOf, hb.reqSum, hb.ckpts, hb.chosen, hb.reqs⟩, (h.zero hz).2⟩
  · have hcalls : Steady ⟨cfg, id, fun _ _ => none, fun _ _ => false⟩ u { u with calls := [] } :=
      ⟨quiet_of_eq rfl rfl rfl rfl fun _ => rfl, rfl, rfl, rfl, rfl, rfl, fun h => h⟩
    exact (h.primary hp).steady hcalls

/-- A step is an operation that returned, and the calls made. -/
theorem nvStep_eq {a : NVStep} (h : nvStep cfg id s a = some t) : a.op.verified cfg id = true ∧
    ∃ u, (a.op.perform ⟨cfg, id, a.prePrepare, a.prepare⟩ s) = (some (), u) ∧
      t = { u with calls := [] } := by
  unfold nvStep at h
  split at h
  · rename_i hv
    cases hx : a.op.perform ⟨cfg, id, a.prePrepare, a.prepare⟩ s with
    | mk o u =>
      rw [hx] at h
      cases o with
      | none => cases h
      | some _ => exact ⟨hv, u, rfl, (Option.some.inj h).symm⟩
  · cases h

theorem step_told {σ τ : Traced} {a : NVStep} (h : Told cfg id σ) (hd : a.digested cfg = true)
    (hs : σ.step cfg id a = some τ) :
    Told cfg id τ := by
  obtain ⟨t, ht, rfl⟩ := Option.map_eq_some_iff.1 hs
  obtain ⟨hv, u, hu, rfl⟩ := nvStep_eq ht
  have hp := (perform_follows (V := ⟨cfg, id, a.prePrepare, a.prepare⟩) h a hv hd).result.1
  rw [hu] at hp
  exact (hp () rfl).told h.nodup h.nodupReqs

theorem told_new : Told cfg id Traced.new := by
  have hn : ∀ j, NVInfo.new.inNewView cfg j = false := fun _ => rfl
  have hb : Blank NVInfo.new := ⟨fun _ => rfl, fun _ => rfl, rfl, rfl, rfl⟩
  exact ⟨List.nodup_nil, List.nodup_nil, fun j vc hvc =>
    (by cases hvc), fun _ => ⟨hb, hn⟩, fun _ => hb.primary hn⟩

/-! ## What the summaries say -/

/-- `n_proofs` of a checkpoint is the number of the view-changes that contain it. -/
def ProofsExact (P : Params) (σ : Traced) : Prop :=
  ∀ c ∈ σ.s.ckpts, c.nProofs = σ.processed.countP (hasCkpt P c.n c.d)

/-- `n_le` of a checkpoint is the number of the view-changes whose last stable one is not beyond
it. -/
def CkptsExact (σ : Traced) : Prop :=
  ∀ c ∈ σ.s.ckpts, c.nLe = σ.processed.countP fun vc => decide (vc.ls ≤ c.n)

/-- `n_le` of a request for `i` is the number of the view-changes that prepared none there, one of a
smaller view, or this one. -/
def ReqsExact (P : Params) (σ : Traced) (i : Int) : Prop :=
  ∀ j c, σ.s.cell i j = some c →
    c.nLe = σ.summed.countP fun vc => (vc.req P i).any
      fun r => decide (r = (-1, 0) ∨ r.1 < c.v ∨ r = (c.v, c.d))

/-- The view-changes came in such an order that every one fits after those before it. -/
def CkptsOrderly (P : Params) (σ : Traced) : Prop := byCkpt.Orderly (σ.processed.map (stable P))

def ReqsOrderly (P : Params) (σ : Traced) (i : Int) : Prop := byReq.Orderly (requests P i σ.summed)

/-- Some checkpoint has `f + 1` proofs and a quorum. -/
def Reached (cfg : Cfg) (s : NVInfo) : Prop := ∃ c ∈ s.ckpts, cfg.f + 1 ≤ c.nProofs ∧ cfg.nf ≤ c.nLe

theorem Ckpted.exact_iff {P : Params} {ckpts : List CkptSum} {W : List ViewChange}
    (h : Ckpted P ckpts W) :
    (∀ c ∈ ckpts, c.nLe = W.countP fun vc => decide (vc.ls ≤ c.n)) ↔
      byCkpt.Exact (W.map (stable P)) := by
  have hupTo : ∀ k, byCkpt.upTo (W.map (stable P)) k = W.countP fun vc => decide (vc.ls ≤ k.1) := by
    intro k
    rw [Summary.upTo, List.countP_map]
    rfl
  constructor
  · intro hex e he
    rw [← h.entries] at he
    obtain ⟨c, hc, rfl⟩ := List.mem_map.1 he
    rw [hupTo]
    exact hex c hc
  · intro hex c hc
    have he := hex (ckptEntry c) (by rw [← h.entries]; exact List.mem_map.2 ⟨c, hc, rfl⟩)
    rw [hupTo] at he
    exact he

/-- What the candidates of a set of view-changes say, in two orders that are right. -/
theorem Ckpted.same {P : Params} {ckpts ckpts' : List CkptSum} {W W' : List ViewChange}
    (h : Ckpted P ckpts W) (h' : Ckpted P ckpts' W') (hp : W.Perm W')
    (hx : byCkpt.Exact (W.map (stable P))) (hx' : byCkpt.Exact (W'.map (stable P))) {c : CkptSum}
    (hc : c ∈ ckpts) :
    ∃ c' ∈ ckpts', c'.nProofs = c.nProofs ∧ c'.nLe = c.nLe := by
  have he : ckptEntry c ∈ byCkpt.entries (W.map (stable P)) := by
    rw [← h.entries]
    exact List.mem_map.2 ⟨c, hc, rfl⟩
  have he' := Summary.mem_entries_of_perm (hp.map _) hx hx' he
  rw [← h'.entries] at he'
  obtain ⟨c', hc', heq⟩ := List.mem_map.1 he'
  obtain ⟨⟨hn, hd⟩, hle⟩ : (c'.n = c.n ∧ c'.d = c.d) ∧ c'.nLe = c.nLe := by
    simpa [ckptEntry] using heq
  refine ⟨c', hc', ?_, hle⟩
  rw [h'.proofs c' hc', h.proofs c hc, hn, hd, hp.countP_eq]

theorem reqsExact_iff {σ : Traced} {i : Int}
    (h : σ.s.rowOf i = byReq.entries (requests cfg.P i σ.summed)) :
    ReqsExact cfg.P σ i ↔ byReq.Exact (requests cfg.P i σ.summed) := by
  have hupTo : ∀ k, byReq.upTo (requests cfg.P i σ.summed) k =
      σ.summed.countP fun vc => (vc.req cfg.P i).any
        fun r => decide (r = (-1, 0) ∨ r.1 < k.1 ∨ r = k) := by
    intro k
    rw [Summary.upTo, requests, List.countP_filterMap]
    refine List.countP_congr fun vc _ => ?_
    cases vc.req cfg.P i <;> exact Iff.rfl
  constructor
  · intro hex e he
    rw [← h] at he
    obtain ⟨j, hj⟩ := List.mem_iff_getElem?.1 he
    rw [rowOf_getElem] at hj
    obtain ⟨c, hc, rfl⟩ := Option.map_eq_some_iff.1 hj
    rw [hupTo]
    exact hex j c hc
  · intro hex j c hc
    have he := hex (reqEntry c) ?_
    · rw [hupTo] at he
      exact he
    · rw [← h]
      refine List.mem_iff_getElem?.2 ⟨j, ?_⟩
      rw [rowOf_getElem, hc]
      rfl

/-- **The summaries of a primary** in every run of messages with digests. The proofs of each
checkpoint are right, and `n_le` of all of them is right exactly if every processed view-change fits
after those before it. The same holds for the requests for each sequence number while the new view
is not complete. Two runs that processed the same view-changes, in orders that are right, agree on
whether a checkpoint has a quorum. -/
theorem summary_exact (cfg : Cfg) (id : Nat) (steps : List NVStep) (σ : Traced)
    (hd : Run.Meets (Traced.step cfg id) (fun _ a => a.digested cfg = true) Traced.new steps)
    (hrun : Run.run (Traced.step cfg id) Traced.new steps = some σ) (hp : cfg.primary σ.s.v = id) :
    ProofsExact cfg.P σ ∧ (CkptsExact σ ↔ CkptsOrderly cfg.P σ) ∧
    (σ.s.isComplete = false → ∀ i, σ.s.min < i → i < σ.s.max →
        (ReqsExact cfg.P σ i ↔ ReqsOrderly cfg.P σ i)) ∧
    ∀ (steps' : List NVStep) (τ : Traced),
      Run.Meets (Traced.step cfg id) (fun _ a => a.digested cfg = true) Traced.new steps' →
      Run.run (Traced.step cfg id) Traced.new steps' = some τ →
        cfg.primary τ.s.v = id → σ.processed.Perm τ.processed →
      CkptsOrderly cfg.P σ → CkptsOrderly cfg.P τ → (Reached cfg σ.s ↔ Reached cfg τ.s) := by
  have htold : ∀ {steps τ},
    Run.Meets (Traced.step cfg id) (fun _ a => a.digested cfg = true) Traced.new steps →
      Run.run (Traced.step cfg id) Traced.new steps = some τ → Told cfg id τ := fun hd hrun =>
    Run.invariant (I := Told cfg id) (fun s a t hs ha ht => step_told hs ha ht) told_new hd hrun
  have hprim := (htold hd hrun).primary hp
  refine ⟨hprim.ckpted.proofs, ?_, fun hc i h1 h2 =>
    ?_, fun steps' τ hd' hrun' hp' hperm ho ho' => ?_⟩
  · exact hprim.ckpted.exact_iff.trans (Summary.exact_iff byCkpt_sound)
  · exact (reqsExact_iff (hprim.rowed.rows hc i h1 h2)).trans (Summary.exact_iff byReq_sound)
  · have hprim' := (htold hd' hrun').primary hp'
    have hx := (Summary.exact_iff byCkpt_sound).2 ho
    have hx' := (Summary.exact_iff byCkpt_sound).2 ho'
    constructor
    · rintro ⟨c, hc, h1, h2⟩
      obtain ⟨c', hc', he1, he2⟩ := hprim.ckpted.same hprim'.ckpted hperm hx hx' hc
      exact ⟨c', hc', he1 ▸ h1, he2 ▸ h2⟩
    · rintro ⟨c, hc, h1, h2⟩
      obtain ⟨c', hc', he1, he2⟩ := hprim'.ckpted.same hprim.ckpted hperm.symm hx' hx hc
      exact ⟨c', hc', he1 ▸ h1, he2 ▸ h2⟩

/-- A view-change of replica `i` for view 1 with the checkpoints `cs` from `ls` on, and no
requests. -/
def stableVC (i : Nat) (ls : Int) (cs : List Digest) : ViewChange where
  v := 1
  ls := ls
  id := i
  nCkpts := cs.length
  nReqs := 0
  prepared := [0#64]
  ckpts := cs
  reqInfo := []

/-- Replica 1, the primary, collects its own view-change and the acknowledged ones of `vcs`. -/
def ackedRun (vcs : List ViewChange) : List NVStep :=
  ((.newNewView 1 :: .addViewChange (stableVC 1 0 [5]) true true ::
    vcs.flatMap fun vc => [.addViewChange vc true true,
      .addAck ⟨1, 3, vc.id, Replica.fourReplicas.vcDigest vc⟩]) : List NVOp).map
      opStep

/-- Replica 0 has the checkpoint of sequence number 0, as the primary has, and the one of sequence
number 2, where that of replica 2 starts. -/
def earlyVC : ViewChange := stableVC 0 0 [5, 6]

def lateVC : ViewChange := stableVC 2 2 [6]

/-- In the other order the view-changes fit, and the summaries are right. -/
theorem summary_exact_late : ∃ σ,
    Run.run (Traced.step Replica.fourReplicas 1) Traced.new (ackedRun [lateVC, earlyVC]) = some σ ∧
    σ.processed = [stableVC 1 0 [5], lateVC, earlyVC] ∧ CkptsOrderly Replica.fourReplicas.P σ ∧
    ProofsExact Replica.fourReplicas.P σ := by
  have hrun : ((Run.run (Traced.step Replica.fourReplicas 1)
    Traced.new (ackedRun [lateVC, earlyVC])).any fun σ =>
      decide (Replica.fourReplicas.primary σ.s.v = 1 ∧
        σ.processed = [stableVC 1 0 [5], lateVC, earlyVC] ∧
        ∀ c ∈ σ.s.ckpts, c.nLe = σ.processed.countP fun vc => decide (vc.ls ≤ c.n))) =
          true := by decide +kernel
  obtain ⟨σ, hσ, h⟩ := (Option.any_eq_true _ _).1 hrun
  obtain ⟨hp, hproc, hex⟩ := of_decide_eq_true h
  have hsum :=
    summary_exact Replica.fourReplicas 1 (ackedRun [lateVC, earlyVC]) σ (by decide +kernel) hσ hp
  exact ⟨σ, hσ, hproc, hsum.2.1.1 hex, hsum.1⟩

/-- The view-changes of replicas 1 and 0 share the checkpoint of sequence number 0, so the one of
sequence number 2 that comes in with replica 2 starts with a count of two, not three, and is not
chosen; in the other order it is. -/
theorem shared_undercounted : (¬∀ (cfg : Cfg) (id : Nat) (steps : List NVStep) (σ : Traced),
      Run.run (Traced.step cfg id) Traced.new steps = some σ →
        cfg.primary σ.s.v = id → CkptsExact σ) ∧
    ¬∀ (cfg : Cfg) (id : Nat) (steps steps' : List NVStep) (σ τ : Traced),
      Run.run (Traced.step cfg id) Traced.new steps = some σ →
        Run.run (Traced.step cfg id) Traced.new steps' = some τ →
      cfg.primary σ.s.v = id → cfg.primary τ.s.v = id → σ.processed.Perm τ.processed →
      (Reached cfg σ.s ↔ Reached cfg τ.s) := by
  have hrun : ((Run.run (Traced.step Replica.fourReplicas 1)
    Traced.new (ackedRun [earlyVC, lateVC])).any fun σ =>
      decide (Replica.fourReplicas.primary σ.s.v = 1 ∧
        σ.processed = [stableVC 1 0 [5], earlyVC, lateVC] ∧
        σ.s.ckpts.map (fun c => (c.n, c.nProofs, c.nLe)) = [(0, 2, 2), (2, 2, 2)])) =
          true := by decide +kernel
  have hrun' : ((Run.run (Traced.step Replica.fourReplicas 1)
    Traced.new (ackedRun [lateVC, earlyVC])).any fun σ =>
      decide (Replica.fourReplicas.primary σ.s.v = 1 ∧
        σ.processed = [stableVC 1 0 [5], lateVC, earlyVC] ∧
        ∃ c ∈ σ.s.ckpts, 2 ≤ c.nProofs ∧ 3 ≤ c.nLe)) = true := by decide +kernel
  obtain ⟨σ, hσ, h⟩ := (Option.any_eq_true _ _).1 hrun
  obtain ⟨hp, hproc, hck⟩ := of_decide_eq_true h
  obtain ⟨τ, hτ, h'⟩ := (Option.any_eq_true _ _).1 hrun'
  obtain ⟨hp', hproc', hreached⟩ := of_decide_eq_true h'
  have hmem : ∀ c ∈ σ.s.ckpts, c.nLe = 2 := by
    intro c hc
    have hc : (c.n, c.nProofs, c.nLe) ∈ [((0 : Int), 2, 2), ((2 : Int), 2, 2)] := by
      rw [← hck]
      exact List.mem_map.2 ⟨c, hc, rfl⟩
    simp only [List.mem_cons, Prod.mk.injEq, List.not_mem_nil, or_false] at hc
    omega
  constructor
  · intro hall
    have hex := hall Replica.fourReplicas 1 _ σ hσ hp
    obtain ⟨c, hc, heq⟩ :=
      List.mem_map.1 (show ((2 : Int), 2, 2) ∈ σ.s.ckpts.map fun c => (c.n, c.nProofs, c.nLe) by
      rw [hck]
      simp)
    have hn : c.n = 2 := congrArg Prod.fst heq
    have hcount := hex c hc
    rw [hmem c hc, hproc, hn] at hcount
    exact absurd hcount (by decide)
  · intro hall
    have hperm : σ.processed.Perm τ.processed := by
      rw [hproc, hproc']
      exact .cons _ (.swap _ _ _)
    obtain ⟨c, hc, -, hle⟩ := (hall Replica.fourReplicas 1 _ _ σ τ hσ hτ hp hp' hperm).2 hreached
    have hle : 3 ≤ c.nLe := hle
    rw [hmem c hc] at hle
    omega

end NVInfo

end TinyBFT
