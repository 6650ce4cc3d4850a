import TinyBFT.AckCounts

/-!
# The checkpoint that is known to be stable (`NV_info.cc:422-453`)

When a new view is complete, `known_stable` computes a bound below which the replica need not keep
anything: the larger one of the `f + 1`-st largest `last_stable`, which a correct replica claims,
and the `2f + 1`-st largest last checkpoint. It asserts that the former is at most `min`, the
sequence number of the chosen checkpoint. This is so because `2f + 1` of the view-changes have a
`last_stable` of at most `min`, at a primary (`n_le` of the chosen candidate) and at a backup
(`n_le` of `check_new_view`).

| here | there |
| --- | --- |
| `claimed`       | the view-changes with a `last_stable` from a sequence number on |
| `reaching`      | the view-changes with a checkpoint from a sequence number on |
| `below`         | the view-changes with a `last_stable` up to a sequence number |
| `Vouches`       | what `known_stable` promises |
| `Included`, `Led` | what `n_le` of a candidate at a primary counts |
-/

namespace TinyBFT

/-- The message contains a checkpoint with a sequence number from `x` on. -/
def ViewChange.reaches (P : Params) (vc : ViewChange) (x : Int) : Bool :=
  (List.range vc.nCkpts).any fun k =>
    let n := vc.ls + k * P.ckptInterval
    decide (x ≤ n) && (vc.ckpt P n).any (·.isSome)

namespace NVInfo

open Prog (Ensures Reaches Holds get modify assert ofOption when each eachUntil)

/-- The view-changes of distinct replicas that claim a stable checkpoint from `x` on. -/
def claimed (cfg : Cfg) (F : Nat → Option ViewChange) (x : Int) : Nat :=
  (List.range cfg.n).countP fun j => (F j).any fun vc => decide (x ≤ vc.ls)

/-- Those that contain a checkpoint from `x` on. -/
def reaching (cfg : Cfg) (F : Nat → Option ViewChange) (x : Int) : Nat :=
  (List.range cfg.n).countP fun j => (F j).any fun vc => vc.reaches cfg.P x

/-- Those whose stable checkpoint is at most `x`. -/
def below (cfg : Cfg) (F : Nat → Option ViewChange) (x : Int) : Nat :=
  (List.range cfg.n).countP fun j => (F j).any fun vc => decide (vc.ls ≤ x)

/-- What `known_stable` promises for its result `ks`. -/
structure Vouches (cfg : Cfg) (F : Nat → Option ViewChange) (min ks : Int) : Prop where
  le : ks ≤ min
  proof : cfg.f + 1 ≤ claimed cfg F ks ∨ cfg.nf ≤ reaching cfg F ks

/-- The stored view-changes are filed under their senders and pass `verify`. -/
def FiledWell (cfg : Cfg) (F : Nat → Option ViewChange) : Prop :=
  ∀ j vc, F j = some vc → vc.id = j ∧ j < cfg.n ∧ vc.wellFormed cfg = true

/-! ## `known_stable` -/

section KnownStable

variable {cfg : Cfg} {F : Nat → Option ViewChange} {x : Int}

/-- The first vector of `known_stable`. -/
def stables (cfg : Cfg) (F : Nat → Option ViewChange) : List Int :=
  (List.range cfg.n).map fun i => ((F i).map (·.ls)).getD 0

/-- The sequence number of the last checkpoint, `0` without one. -/
def lastOf (P : Params) (vc : ViewChange) : Int :=
  if 0 < vc.nCkpts then (vc.nCkpts - 1 : Nat) * P.ckptInterval + vc.ls else 0

/-- The second vector of `known_stable`. -/
def lasts (cfg : Cfg) (F : Nat → Option ViewChange) : List Int :=
  (List.range cfg.n).map fun i => ((F i).map (lastOf cfg.P)).getD 0

theorem ls_nonneg {vc : ViewChange} (h : vc.wellFormed cfg = true) : 0 ≤ vc.ls :=
  (of_decide_eq_true (Bool.and_eq_true_iff.1 h).1).2.2.2.2.2.1

theorem lastOf_nonneg {vc : ViewChange} (h : vc.wellFormed cfg = true) : 0 ≤ lastOf cfg.P vc := by
  have := ls_nonneg h
  unfold lastOf
  split
  · exact add_nonneg (by positivity) this
  · exact le_rfl

/-- The last checkpoint of a verified message is there. -/
theorem reaches_lastOf {vc : ViewChange} (h : vc.wellFormed cfg = true) (hpos : 0 < vc.nCkpts)
    {x : Int} (hx : x ≤ lastOf cfg.P vc) :
    vc.reaches cfg.P x = true := by
  obtain ⟨-, -, -, hn, hd, -, hmod⟩ := of_decide_eq_true (Bool.and_eq_true_iff.1 h).1
  have hc : (0 : Int) < cfg.P.ckptInterval := by exact_mod_cast cfg.P.ckptInterval_pos
  rw [lastOf, if_pos hpos] at hx
  have hlt : vc.nCkpts - 1 < 2 ^ 31 := by
    have := Nat.div_le_self cfg.P.maxOut cfg.P.ckptInterval
    have := cfg.P.maxOut_lt
    omega
  have hindex : toInt ((vc.ls + (vc.nCkpts - 1 : Nat) * cfg.P.ckptInterval - vc.ls) /
    cfg.P.ckptInterval) = (vc.nCkpts - 1 : Nat) := by
    rw [add_sub_cancel_left, Int.mul_ediv_cancel _ hc.ne']
    exact toInt_eq_self (by omega) (by omega)
  have hckpt : vc.ckpt cfg.P (vc.ls + (vc.nCkpts - 1 : Nat) * cfg.P.ckptInterval) =
    some (some (vc.ckpts.getD (vc.nCkpts - 1) 0)) := by
    have hge : ¬(vc.ls + (vc.nCkpts - 1 : Nat) * cfg.P.ckptInterval) < vc.ls := by
      have : (0 : Int) ≤ (vc.nCkpts - 1 : Nat) * cfg.P.ckptInterval := by positivity
      omega
    unfold ViewChange.ckpt
    rw [if_neg (by rw [Int.add_mul_emod_self_right, not_or]; exact ⟨not_not.2 hmod, hge⟩)]
    simp only [hindex]
    rw [if_neg (by omega), if_neg (by omega), Int.toNat_natCast, hd hpos, if_neg Bool.false_ne_true]
  refine List.any_eq_true.2 ⟨vc.nCkpts - 1, List.mem_range.2 (by omega), ?_⟩
  simp only [hckpt, Bool.and_eq_true, decide_eq_true_eq]
  exact ⟨by omega, rfl⟩

theorem lastCkpt_eq {vc : ViewChange} (h : vc.wellFormed cfg = true) :
    ((vc.lastCkpt cfg.P).map fun c => (c.map (·.2)).getD 0) = some (lastOf cfg.P vc) := by
  obtain ⟨-, -, -, -, hd, -, -⟩ := of_decide_eq_true (Bool.and_eq_true_iff.1 h).1
  unfold ViewChange.lastCkpt lastOf
  split
  · rename_i hpos
    have hne : ¬vc.ckpts.getD (vc.nCkpts - 1) 0 = 0 := by
      intro hz
      have := hd hpos
      rw [hz] at this
      cases this
    simp only [hne, if_false, Option.map_some, Option.getD_some]
  · rfl

theorem stables_nonneg (hF : FiledWell cfg F) : ∀ x ∈ stables cfg F, 0 ≤ x := by
  intro x hx
  obtain ⟨i, -, rfl⟩ := List.mem_map.1 hx
  cases hvc : F i with
  | none => exact le_rfl
  | some vc => exact ls_nonneg (hF i vc hvc).2.2

theorem lasts_nonneg (hF : FiledWell cfg F) : ∀ x ∈ lasts cfg F, 0 ≤ x := by
  intro x hx
  obtain ⟨i, -, rfl⟩ := List.mem_map.1 hx
  cases hvc : F i with
  | none => exact le_rfl
  | some vc => exact lastOf_nonneg (hF i vc hvc).2.2

/-- A quorum claims a sequence number that is not positive. -/
theorem claimed_of_nonpos (hF : FiledWell cfg F) {min : Int} (hb : cfg.nf ≤ below cfg F min)
    (hx : x ≤ 0) : cfg.f + 1 ≤ claimed cfg F x := by
  have hmono : below cfg F min ≤ claimed cfg F x := by
    refine List.countP_mono_left fun j _ hj => ?_
    obtain ⟨vc, hvc, -⟩ := (Option.any_eq_true _ _).1 hj
    refine (Option.any_eq_true _ _).2 ⟨vc, hvc,
      decide_eq_true (hx.trans (ls_nonneg (hF j vc hvc).2.2))⟩
  unfold Cfg.nf at hb
  omega

/-- What the first vector counts is claimed. -/
theorem claimed_of_stables (hx : 0 < x) :
    (stables cfg F).countP (fun y => x ≤ y) ≤ claimed cfg F x := by
  rw [stables, List.countP_map]
  refine List.countP_mono_left fun j _ hj => ?_
  have hj : x ≤ ((F j).map (·.ls)).getD 0 := of_decide_eq_true hj
  cases hvc : F j with
  | none =>
    rw [hvc] at hj
    exact absurd hj (not_le.2 hx)
  | some vc =>
    rw [hvc] at hj
    exact decide_eq_true hj

/-- What the second vector counts is there. -/
theorem reaching_of_lasts (hF : FiledWell cfg F) (hx : 0 < x) :
    (lasts cfg F).countP (fun y => x ≤ y) ≤ reaching cfg F x := by
  rw [lasts, List.countP_map]
  refine List.countP_mono_left fun j _ hj => ?_
  have hj : x ≤ ((F j).map (lastOf cfg.P)).getD 0 := of_decide_eq_true hj
  cases hvc : F j with
  | none =>
    rw [hvc] at hj
    exact absurd hj (not_le.2 hx)
  | some vc =>
    have hj : x ≤ lastOf cfg.P vc := by
      rw [hvc] at hj
      exact hj
    have hpos : 0 < vc.nCkpts := by
      by_contra hn
      rw [lastOf, if_neg hn] at hj
      omega
    exact reaches_lastOf (hF j vc hvc).2.2 hpos hj

/-- **The assertion of `known_stable`**: a quorum has a stable checkpoint of at most `min`, so the
`f + 1`-st largest is one. -/
theorem maxStable1_le (hF : FiledWell cfg F) {min : Int} (hb : cfg.nf ≤ below cfg F min) :
    kMax (cfg.f + 1) (stables cfg F) seqnoMax ≤ min := by
  have hlen : (stables cfg F).length = cfg.n := by simp [stables]
  have hle : cfg.f + 1 ≤ (stables cfg F).length := by
    rw [hlen]
    unfold Cfg.n
    omega
  have htmax : 0 ≤ seqnoMax := by decide
  have hcount := kMax_le_countP hle htmax (stables_nonneg hF)
  rw [stables, List.countP_map, ← stables] at hcount
  have hover : (List.range cfg.n).length <
    (List.range cfg.n).countP (fun j => (F j).any fun vc => decide (vc.ls ≤ min)) +
      (List.range cfg.n).countP ((fun y => decide (kMax (cfg.f + 1) (stables cfg F) seqnoMax ≤ y)) ∘
        fun i => ((F i).map (·.ls)).getD 0) := by
    unfold below Cfg.nf at hb
    rw [List.length_range]
    unfold Cfg.n at hb hcount ⊢
    omega
  obtain ⟨j, -, h1, h2⟩ := Count.countP_overlap hover
  obtain ⟨vc, hvc, hle⟩ := (Option.any_eq_true _ _).1 h1
  have hge : kMax (cfg.f + 1) (stables cfg F) seqnoMax ≤ ((F j).map (·.ls)).getD 0 :=
    of_decide_eq_true h2
  rw [hvc] at hge
  exact le_trans hge (of_decide_eq_true hle)

theorem mapM_some {α β : Type} {f : α → Option β} {g : α → β}
    (h : ∀ i, f i = some (g i)) (l : List α) :
    l.mapM f = some (l.map g) := by
  rw [show f = fun i => some (g i) from funext h]
  exact List.mapM_pure

/-- The two vectors decide. -/
theorem knownStable_eq {V : NVEnv} {s : NVInfo} (hF : FiledWell V.cfg s.vcOf)
    (hc : s.isComplete = true) (hle : kMax (V.cfg.f + 1) (stables V.cfg s.vcOf) seqnoMax ≤ s.min) :
    s.knownStable V = some (kMax (V.cfg.f + 1) (stables V.cfg s.vcOf) seqnoMax ⊔
      (s.min ⊓ kMax V.cfg.nf (lasts V.cfg s.vcOf) seqnoMax)) := by
  rw [stables] at hle ⊢
  unfold knownStable
  rw [if_neg (by simp [hc])]
  dsimp only
  rw [if_neg (not_lt.2 hle),
    mapM_some (g := fun i => ((s.vcOf i).map (lastOf V.cfg.P)).getD 0), ← lasts]
  swap
  · intro i
    cases hvc : s.vcOf i with
    | none => rfl
    | some vc => exact lastCkpt_eq (hF i vc hvc).2.2
  simp only [Option.bind_eq_bind, Option.bind_some, Option.some.injEq]
  rw [max_def, min_def]
  split_ifs <;> omega

/-- **`known_stable`** of a complete `NV_info`. -/
theorem knownStable_spec {V : NVEnv} {s : NVInfo} (hF : FiledWell V.cfg s.vcOf)
    (hb : V.cfg.nf ≤ below V.cfg s.vcOf s.min) (hc : s.isComplete = true) :
    ∃ ks, s.knownStable V = some ks ∧ Vouches V.cfg s.vcOf s.min ks := by
  have hle := maxStable1_le hF hb
  refine ⟨_, knownStable_eq hF hc hle, max_le hle (min_le_left ..), ?_⟩
  have htmax : 0 ≤ seqnoMax := by decide
  have hlen1 : V.cfg.f + 1 ≤ (stables V.cfg s.vcOf).length := by
    simp [stables, Cfg.n]
    omega
  have hlen2 : V.cfg.nf ≤ (lasts V.cfg s.vcOf).length := by
    simp [lasts, Cfg.n, Cfg.nf]
    omega
  have h1 := kMax_le_countP hlen1 htmax (stables_nonneg hF)
  have h2 := kMax_le_countP hlen2 htmax (lasts_nonneg hF)
  set max1 := kMax (V.cfg.f + 1) (stables V.cfg s.vcOf) seqnoMax
  set max2 := kMax V.cfg.nf (lasts V.cfg s.vcOf) seqnoMax
  rcases le_or_gt (max1 ⊔ (s.min ⊓ max2)) 0 with hz | hpos
  · exact .inl (claimed_of_nonpos hF hb hz)
  rcases max_cases max1 (s.min ⊓ max2) with ⟨heq, -⟩ | ⟨heq, -⟩
  · rw [heq] at hpos ⊢
    exact .inl (h1.trans (claimed_of_stables hpos))
  · rw [heq] at hpos ⊢
    refine .inr
      (h2.trans ((List.countP_mono_left fun y _ hy => ?_).trans (reaching_of_lasts hF hpos)))
    exact decide_eq_true ((min_le_right s.min max2).trans (of_decide_eq_true hy))

end KnownStable

/-! ## What holds at every moment -/

variable {V : NVEnv} {cfg : Cfg} {id : Nat} {s t u : NVInfo}

/-- The checkpoint is chosen for a quorum, and nothing is complete before. -/
structure Safe (cfg : Cfg) (s : NVInfo) : Prop where
  filed : FiledWell cfg s.vcOf
  chosen : s.chosenCkpt.isSome = true → cfg.nf ≤ below cfg s.vcOf s.min
  complete : s.isComplete = true → s.chosenCkpt.isSome = true
  /-- A call with a digest is made when the new view is complete, with the result of
  `known_stable`. -/
  calls : ∀ min d max ks, .processNewView min d max ks ∈ s.calls →
    d ≠ 0 → s.isComplete = true ∧ Vouches cfg s.vcOf s.min ks

theorem Safe.known (h : Safe V.cfg s) (hc : s.isComplete = true) :
    ∃ ks, s.knownStable V = some ks ∧ Vouches V.cfg s.vcOf s.min ks :=
  knownStable_spec h.filed (h.chosen (h.complete hc)) hc

/-- What the completion of a new view leaves alone. -/
structure Anchor where
  v : Int
  vcOf : Nat → Option ViewChange
  vcInfo : Option (Nat → Digest)
  ckpts : List CkptSum
  chosenCkpt : Option Nat
  min : Int
  vcCur : Nat
  vcTarget : Nat

def anchor (s : NVInfo) : Anchor :=
  ⟨s.v, s.vcOf, s.nv.map (·.vcInfo), s.ckpts, s.chosenCkpt, s.min, s.vcCur, s.vcTarget⟩

/-- After the choice of a checkpoint. -/
def Pinned (cfg : Cfg) (a : Anchor) (s : NVInfo) : Prop :=
  s.anchor = a ∧ s.chosenCkpt.isSome = true ∧ Safe cfg s

section Frames

open Prog.Holds

variable {a : Anchor}

/-- The rest of the state plays no part. -/
theorem Safe.of_eq (h : Safe cfg s) (ha : t.anchor = s.anchor) (hi : t.isComplete = s.isComplete)
    (hc : t.calls = s.calls) :
    Safe cfg t := by
  have hv : t.vcOf = s.vcOf := congrArg Anchor.vcOf ha
  have hch : t.chosenCkpt = s.chosenCkpt := congrArg Anchor.chosenCkpt ha
  have hm : t.min = s.min := congrArg Anchor.min ha
  constructor
  · rw [hv]; exact h.filed
  · rw [hch, hv, hm]; exact h.chosen
  · rw [hch, hi]; exact h.complete
  · rw [hc, hi, hv, hm]; exact h.calls

theorem Pinned.of_eq (h : Pinned cfg a s) (ha : t.anchor = s.anchor)
    (hi : t.isComplete = s.isComplete) (hc : t.calls = s.calls) :
    Pinned cfg a t := by
  refine ⟨ha.trans h.1, ?_, h.2.2.of_eq ha hi hc⟩
  rw [show t.chosenCkpt = s.chosenCkpt from congrArg Anchor.chosenCkpt ha]
  exact h.2.1

theorem Pinned.safe (s : NVInfo) (h : Pinned cfg a s) : Safe cfg s := h.2.2

/-- The result of `known_stable` is passed on. -/
theorem Pinned.called (h : Pinned V.cfg a s) (hi : s.isComplete = true) {ks : Int}
    (hks : s.knownStable V = some ks) (min : Int) (d : Digest) (max : Int) :
    Pinned V.cfg a { s with calls := s.calls ++ [.processNewView min d max ks] } := by
  refine ⟨h.1, h.2.1, h.2.2.filed, h.2.2.chosen, h.2.2.complete, fun min' d' max' ks' hmem hd => ?_⟩
  rcases List.mem_append.1 hmem with hmem | hmem
  · exact h.2.2.calls min' d' max' ks' hmem hd
  · obtain ⟨ks₀, hks₀, hv⟩ := h.2.2.known (V := V) hi
    rw [hks] at hks₀
    cases hks₀
    cases List.mem_singleton.1 hmem
    exact ⟨hi, hv⟩

end Frames

/-! ## The candidates of a primary -/

/-- The chosen candidate is the one at `min`. -/
def Aligned (s : NVInfo) : Prop :=
  ∀ k, s.chosenCkpt = some k → ∃ c, s.ckpts[k]? = some c ∧ c.n = s.min

/-- `n_le` of a candidate counts view-changes that are there. -/
def Bounded (cfg : Cfg) (s : NVInfo) : Prop := ∀ c ∈ s.ckpts, c.nLe ≤ below cfg s.vcOf c.n

/-- The message of the primary has a digest for the view-change of `j`. -/
def included (s : NVInfo) (j : Nat) : Bool := s.nv.any fun nv => nv.vcInfo j != 0

/-- The included view-changes whose stable checkpoint is at most `x`. -/
def includedBelow (cfg : Cfg) (s : NVInfo) (x : Int) : Nat :=
  (List.range cfg.n).countP fun j => s.included j && (s.vcOf j).any fun vc => decide (vc.ls ≤ x)

/-- `n_le` of a candidate counts included view-changes, and each candidate comes from another
one. -/
structure Led (cfg : Cfg) (s : NVInfo) : Prop where
  le : ∀ c ∈ s.ckpts, c.nLe ≤ includedBelow cfg s c.n
  made : ∀ c ∈ s.ckpts, s.included c.id = true ∧ ∃ vc, s.vcOf c.id = some vc ∧ vc.ls = c.n
  ids : (s.ckpts.map (·.id)).Nodup

theorem Led.of_nil (h : s.ckpts = []) : Led cfg s := by
  constructor <;> simp [h]

theorem included_of_nv (h : t.nv.map (·.vcInfo) = s.nv.map (·.vcInfo)) :
    t.included = s.included := by
  ext1 j
  have hmap : ∀ u : NVInfo, u.included j = (u.nv.map (·.vcInfo)).any
    fun d => d j != 0 := fun u => by
    unfold included
    cases u.nv <;> rfl
  rw [hmap, hmap, h]

theorem Led.of_eq (h : Led cfg s) (hv : t.vcOf = s.vcOf)
    (hn : t.nv.map (·.vcInfo) = s.nv.map (·.vcInfo)) (hc : t.ckpts = s.ckpts) :
    Led cfg t := by
  have hi := included_of_nv hn
  have hb : ∀ x, includedBelow cfg t x = includedBelow cfg s x :=
    fun x => by rw [includedBelow, hi, hv, includedBelow]
  refine ⟨fun c hmem => ?_, fun c hmem => ?_, ?_⟩
  · rw [hb]
    exact h.le c (hc ▸ hmem)
  · rw [hi, hv]
    exact h.made c (hc ▸ hmem)
  · rw [hc]
    exact h.ids

/-- While `summarize` counts the view-change `vc`; those in `is` have not counted it yet. -/
structure Adding (cfg : Cfg) (vc : ViewChange) (s : NVInfo) (is : List Nat)
    (t : NVInfo) : Prop where
  poll : t.poll = s.poll
  chosen : s.chosenCkpt.isSome = true → t.chosenCkpt.isSome = true
  aligned : Aligned t
  safe : Safe cfg t
  length : t.ckpts.length = s.ckpts.length
  entries : ∀ (k : Nat) c', t.ckpts[k]? = some c' → ∃ c,
    s.ckpts[k]? = some c ∧ c'.n = c.n ∧ c'.id = c.id ∧
    c'.nLe ≤ c.nLe + if k ∉ is ∧ vc.ls ≤ c.n then 1 else 0

theorem Adding.bounded {vc : ViewChange} {is : List Nat} (h : Adding cfg vc s is t)
    (hroom : ∀ c ∈ s.ckpts, (c.nLe + if vc.ls ≤ c.n then 1 else 0) ≤ below cfg s.vcOf c.n) :
    Bounded cfg t := by
  intro c' hc'
  obtain ⟨k, hk⟩ := List.mem_iff_getElem?.1 hc'
  obtain ⟨c, hc, hn, -, hle⟩ := h.entries k c' hk
  rw [vcOf_of_poll h.poll, hn]
  refine hle.trans (le_trans ?_ (hroom c (List.mem_of_getElem? hc)))
  split_ifs <;> omega

/-- The message of `t` includes the view-change as well. -/
structure Joined (cfg : Cfg) (vc : ViewChange) (s t : NVInfo) : Prop where
  lt : vc.id < cfg.n
  vcOf : t.vcOf = s.vcOf
  stored : s.vcOf vc.id = some vc
  fresh : s.included vc.id = false
  included : ∀ j, t.included j = true ↔ s.included j = true ∨ j = vc.id

theorem Joined.includedBelow {vc : ViewChange} (h : Joined cfg vc s t) (x : Int) :
    includedBelow cfg t x = includedBelow cfg s x + if vc.ls ≤ x then 1 else 0 := by
  have hQ : (t.included vc.id && (t.vcOf vc.id).any fun m => decide (m.ls ≤ x)) =
    decide (vc.ls ≤ x) := by
    rw [(h.included _).2 (.inr rfl), h.vcOf, h.stored, Bool.true_and]
    rfl
  have hins :=
    Count.countP_insert (P := fun j => s.included j && (s.vcOf j).any fun m => decide (m.ls ≤ x))
    (Q := fun j => t.included j && (t.vcOf j).any fun m => decide (m.ls ≤ x))
      List.nodup_range (List.mem_range.2 h.lt)
    (by simp [h.fresh]) fun j hj => by
      rw [h.vcOf, Bool.eq_iff_iff.2 ((h.included j).trans (or_iff_left hj))]
  rw [hQ] at hins
  simpa [NVInfo.includedBelow] using hins

theorem Adding.ids {vc : ViewChange} {is : List Nat} (h : Adding cfg vc s is t) :
    t.ckpts.map (·.id) = s.ckpts.map (·.id) := by
  refine List.ext_getElem? fun k => ?_
  rw [List.getElem?_map, List.getElem?_map]
  cases hk : t.ckpts[k]? with
  | none =>
    have hlen := List.getElem?_eq_none_iff.1 hk
    rw [h.length] at hlen
    rw [List.getElem?_eq_none hlen]
  | some c' =>
    obtain ⟨c, hc, -, hid, -⟩ := h.entries k c' hk
    rw [hc, Option.map_some, Option.map_some, hid]

/-- Before a checkpoint is chosen there is nothing to keep but the view-changes. -/
theorem Safe.unchosen (h : Safe cfg s) (hn : s.chosenCkpt = none) (ht : t.vcOf = s.vcOf)
    (hch : t.chosenCkpt = none) (hi : t.isComplete = s.isComplete) (hc : t.calls = s.calls) :
    Safe cfg t := by
  have hopen : s.isComplete = true → False := fun hc => by
    have := h.complete hc
    rw [hn] at this
    cases this
  refine ⟨by rw [ht]; exact h.filed, fun hs => ?_,
    fun hs => (hopen (hi ▸ hs)).elim, fun min d max ks hmem hd => ?_⟩
  · rw [hch] at hs
    cases hs
  · exact (hopen (h.calls min d max ks (hc ▸ hmem) hd).1).elim

/-- What a run keeps. -/
structure Grounded (cfg : Cfg) (id : Nat) (s : NVInfo) : Prop where
  safe : Safe cfg s
  zero : s.v = 0 → s.ckpts = [] ∧ s.chosenCkpt = none ∧ s.isComplete = false
  primary : cfg.primary s.v = id → Led cfg s ∧ Aligned s
  /-- A backup chooses when it has all view-changes. -/
  backup : cfg.primary s.v ≠ id → s.vcCur < s.vcTarget → s.chosenCkpt = none

theorem Grounded.of_anchor (h : Grounded cfg id s) (ha : t.anchor = s.anchor) (ht : Safe cfg t)
    (hi : t.v = 0 → t.isComplete = false) : Grounded cfg id t := by
  have hv : t.v = s.v := congrArg Anchor.v ha
  have hck : t.ckpts = s.ckpts := congrArg Anchor.ckpts ha
  have hch : t.chosenCkpt = s.chosenCkpt := congrArg Anchor.chosenCkpt ha
  refine ⟨ht, fun hz => ?_, fun hp => ⟨?_, fun k hk => ?_⟩, fun hp hlt => ?_⟩
  · rw [hck, hch]
    obtain ⟨h1, h2, -⟩ := h.zero (hv ▸ hz)
    exact ⟨h1, h2, hi hz⟩
  · exact (h.primary (hv ▸ hp)).1.of_eq (congrArg Anchor.vcOf ha) (congrArg Anchor.vcInfo ha) hck
  · obtain ⟨c, hc, hn⟩ := (h.primary (hv ▸ hp)).2 k (hch ▸ hk)
    exact ⟨c, hck ▸ hc, hn.trans (congrArg Anchor.min ha).symm⟩
  · have hcur : t.vcCur = s.vcCur := congrArg Anchor.vcCur ha
    have htarget : t.vcTarget = s.vcTarget := congrArg Anchor.vcTarget ha
    rw [hcur, htarget] at hlt
    rw [hch]
    exact h.backup (hv ▸ hp) hlt

/-- The rest of the state plays no part. -/
theorem Grounded.of_eq (h : Grounded cfg id s) (ha : t.anchor = s.anchor)
    (hi : t.isComplete = s.isComplete) (hc : t.calls = s.calls) :
    Grounded cfg id t :=
  h.of_anchor ha (h.safe.of_eq ha hi hc) fun hz =>
    hi.trans (h.zero ((congrArg Anchor.v ha).symm.trans hz)).2.2

/-- A state of another view, with nothing but perhaps view-changes. -/
theorem Grounded.fresh (hF : FiledWell cfg s.vcOf) (hck : s.ckpts = []) (hch : s.chosenCkpt = none)
    (hi : s.isComplete = false) (hc : s.calls = []) : Grounded cfg id s := by
  refine ⟨⟨hF, fun h => ?_, fun h => ?_, fun min d max ks hmem => ?_⟩,
    fun _ => ⟨hck, hch, hi⟩, fun _ => ⟨.of_nil hck, fun k hk => ?_⟩,
    fun _ _ => hch⟩
  · rw [hch] at h
    cases h
  · rw [hi] at h
    cases h
  · rw [hc] at hmem
    cases hmem
  · rw [hch] at hk
    cases hk

/-- The view-change is stored. -/
theorem Safe.store (h : Safe cfg s) (hopen : s.isComplete = false) {m : ViewChange}
    (hid : m.id < cfg.n) (hw : m.wellFormed cfg = true) (hn : s.vcOf m.id = none) :
    Safe cfg (s.store m) := by
  refine ⟨fun j vc hvc => ?_, fun hc =>
    (h.chosen hc).trans (List.countP_mono_left fun j _ hj => ?_), h.complete,
    fun min d max ks hmem hd => ?_⟩
  · rw [store_vcOf] at hvc
    split at hvc
    · rename_i hj
      cases hvc
      exact ⟨hj.symm, hj ▸ hid, hw⟩
    · exact h.filed j vc hvc
  · rw [store_vcOf]
    split
    · rename_i hjm
      rw [hjm, hn] at hj
      cases hj
    · exact hj
  · have := (h.calls min d max ks hmem hd).1
    rw [hopen] at this
    cases this

theorem Led.store (h : Led cfg s) {m : ViewChange} (hn : s.vcOf m.id = none) :
    Led cfg (s.store m) := by
  have hsame : ∀ j, (s.vcOf j).isSome = true → (s.store m).vcOf j = s.vcOf j := fun j hj => by
    rw [store_vcOf, if_neg]
    rintro rfl
    rw [hn] at hj
    cases hj
  refine ⟨fun c hc => (h.le c hc).trans (List.countP_mono_left fun j _ hj => ?_),
    fun c hc => ?_, h.ids⟩
  · obtain ⟨h1, h2⟩ := Bool.and_eq_true_iff.1 hj
    obtain ⟨vc, hvc, -⟩ := (Option.any_eq_true _ _).1 h2
    rw [hsame j (Option.isSome_of_eq_some hvc)]
    exact hj
  · obtain ⟨h1, vc, hvc, hls⟩ := h.made c hc
    exact ⟨h1, vc, by rw [hsame c.id (Option.isSome_of_eq_some hvc)]; exact hvc, hls⟩

/-- SHA-256 of a view-change is never the null digest, which stands for no view-change in a new-view
message. -/
def Sealed (cfg : Cfg) : Prop := ∀ vc : ViewChange, vc.id < cfg.n → cfg.vcDigest vc ≠ 0

end NVInfo

end TinyBFT
