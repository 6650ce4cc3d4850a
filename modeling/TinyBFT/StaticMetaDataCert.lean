import TinyBFT.MetaDataCert

/-!
# `Meta_data_cert` in the static build (`Meta_data_cert.cc`, `special_region.cc:171-180`)

With `STATIC_LOG_ALLOCATOR` a certificate owns no messages: `persist` copies a message into the
block of its sender, and `last_mdds` points there.

| here | there |
| --- | --- |
| `StaticMetaDataCert` | the certificate, and the blocks `metadata_ds`; `held i` is whether `last_mdds[i]` is set |
| `blockSize`      | the size of `MetaDataDBlock::msg_` |
| `persist`        | `Meta_data_d::persist`, with `store_metadata_d` and `load_metadata_d` |
| `add`, `clear`   | `Meta_data_cert.cc:33-146` with what is under `#ifdef STATIC_LOG_ALLOCATOR` |

When the votes of the message that is replaced are taken back, its block already has the new one. So
the new message takes back its own votes, and those of the old one stay. `store_metadata_d` does not
check that the message fits the block.
-/

namespace TinyBFT

structure StaticMetaDataCert (P : Params) where
  tally : Tally
  held : Nat → Bool
  slots : Nat → MetaDataD P

namespace StaticMetaDataCert

variable {P : Params} (c : TreeCfg) (E : Env)

def blockSize (P : Params) : Int := MetaDataD.repSize P + P.authenticatorSize

def new (slots : Nat → MetaDataD P) : StaticMetaDataCert P := ⟨Tally.new E.n, fun _ => false, slots⟩

def clear (s : StaticMetaDataCert P) : StaticMetaDataCert P :=
  { s with
    tally := { s.tally with lastStables := List.replicate E.n 0,
                            ls := 0, vals := [], c := -1, hasMine := false }
    held := fun _ => false }

/-- The message that `last_mdds[i]` points to. -/
def last (s : StaticMetaDataCert P) (i : Nat) : Option (MetaDataD P) :=
  if s.held i then some (s.slots i) else none

def persist (m : MetaDataD P) (s : StaticMetaDataCert P) : Option (StaticMetaDataCert P) :=
  if m.size ≤ blockSize P then some { s with slots := Function.update s.slots m.id m } else none

def add (x : Incoming P) (s : StaticMetaDataCert P) : Option (StaticMetaDataCert P × Bool) :=
  let t := if x.mine then { s.tally with hasMine := true } else s.tally
  if x.mine || x.m.verify c E x.mac then
    if !(x.mine || x.m.id != E.id) then none
    else if MetaDataCert.stale (s.last x.m.id) x.m then some ({ s with tally := t }, false)
    else do
      let u ← s.persist x.m
      -- `om` still points to the block
      let (t, added) ← t.settle E (u.last x.m.id) (u.slots x.m.id)
      some ({ u with tally := t, held := Function.update s.held x.m.id added }, added)
  else some ({ s with tally := t }, false)

def step (s : StaticMetaDataCert P) (x : Incoming P) : Option (StaticMetaDataCert P) :=
  (add c E x s).map Prod.fst

end StaticMetaDataCert

open MetaDataCert

/-! ## What the pass reads of the old message -/

namespace Tally

variable {P : Params} {E : Env} {om om' : Option (MetaDataD P)} {m : MetaDataD P} {ls : Int}

/-- The vote on a value does not depend on its count. -/
theorem oldVote_congr {e e' : PartVal} (h : e.c = e'.c ∧ e.d = e'.d) :
    oldVote om e = oldVote om e' := by
  cases om with
  | none => rfl
  | some om => simp [oldVote, MetaDataD.votes, h.1, h.2]

theorem visit_congr {i : Nat} {s : Pass} (h : ∀ e ∈ s.vals, oldVote om e = oldVote om' e) :
    visit E om m ls i s = visit E om' m ls i s := by
  unfold visit
  cases hval : s.vals[i]? with
  | none => rfl
  | some val => simp only [Option.bind_eq_bind, Option.bind_some, h val (List.mem_of_getElem? hval)]

/-- The pass reads no more of the old message than its votes on the values. -/
theorem pass_congr : ∀ {fuel i : Nat} {s : Pass}, (∀ e ∈ s.vals, oldVote om e = oldVote om' e) →
    pass E om m ls fuel i s = pass E om' m ls fuel i s
  | 0, _, _, _ => rfl
  | fuel + 1, i, s, h => by
    rw [pass, pass, visit_congr h]
    split
    · cases hv : visit E om' m ls i s with
      | none => rfl
      | some t =>
        refine pass_congr fun e he => ?_
        obtain ⟨e', he', heq⟩ := visit_subset hv e he
        rw [oldVote_congr heq, oldVote_congr heq]
        exact h e' he'
    · rfl

theorem settle_congr {t : Tally} (h : ∀ e ∈ t.vals, oldVote om e = oldVote om' e) :
    t.settle E om m = t.settle E om' m := by
  have hr : ∀ ls, Tally.recount E om m { t with ls } = Tally.recount E om' m { t with ls } :=
    fun ls => by
    simp only [recount, pass_congr (s := ⟨t.vals, fun _ => false, t.c, t.d⟩) h]
  simp only [settle, hr]

end Tally

/-! ## The two builds -/

namespace StaticMetaDataCert

variable {P : Params} (c : TreeCfg) (E : Env)

/-- The same values, and the same latest messages. -/
structure Same (s : MetaDataCert P) (t : StaticMetaDataCert P) : Prop where
  tally : s.tally = t.tally
  last : ∀ i, s.lastMdds i = t.last i

/-- A message that the certificate takes fits the block, and votes on the values as the message that
it replaces. -/
def SameVotes (s : MetaDataCert P) (x : Incoming P) : Prop :=
  accepts c E (s.lastMdds x.m.id) x = true →
    x.m.size ≤ blockSize P ∧ ∀ om, s.lastMdds x.m.id = some om → ∀ e ∈ s.tally.vals,
      om.votes e = x.m.votes e

variable {c} {E} {s : MetaDataCert P} {t : StaticMetaDataCert P} {x : Incoming P}

theorem new_same (slots : Nat → MetaDataD P) : Same (MetaDataCert.new E P) (new E slots) :=
  ⟨rfl, fun _ => rfl⟩

theorem Same.clear (h : Same s t) : Same (s.clear E) (t.clear E) where
  tally := by simp only [MetaDataCert.clear, StaticMetaDataCert.clear, h.tally]
  last _ := rfl

theorem Same.noted (h : Same s t) (x : Incoming P) : Same { s with
      tally := MetaDataCert.noted x s.tally } { t with tally := MetaDataCert.noted x t.tally } :=
  ⟨congrArg (MetaDataCert.noted x) h.tally, h.last⟩

/-- The block has the new message when the votes of the old one are taken back. -/
theorem last_persist {u : StaticMetaDataCert P} (h : t.persist x.m = some u) :
    u.tally = t.tally ∧ u.held = t.held ∧ u.slots = Function.update t.slots x.m.id x.m := by
  unfold persist at h
  split at h
  · cases h
    exact ⟨rfl, rfl, rfl⟩
  · cases h

/-- The votes that the static build takes back. -/
theorem oldVote_same (h : Same s t) {u : StaticMetaDataCert P} (hu : t.persist x.m = some u)
    (hv : ∀ om, s.lastMdds x.m.id = some om → ∀ e ∈ s.tally.vals, om.votes e = x.m.votes e) :
    ∀ e ∈ t.tally.vals, Tally.oldVote (s.lastMdds x.m.id) e = Tally.oldVote (u.last x.m.id) e := by
  intro e he
  obtain ⟨-, hheld, hslots⟩ := last_persist hu
  have hl := h.last x.m.id
  cases hh : t.held x.m.id with
  | false =>
    rw [hl]
    simp [last, hheld, hh]
  | true =>
    have hs : s.lastMdds x.m.id = some (t.slots x.m.id) := by simp [hl, last, hh]
    rw [← h.tally] at he
    simp only [hs, last, hheld, hh, hslots, if_true, Function.update_self]
    exact hv _ hs e he

theorem add_same (h : Same s t) (hx : SameVotes c E s x) :
    Option.Rel (fun r r' => Same r.1 r'.1 ∧ r.2 = r'.2)
      (MetaDataCert.add c E x s) (add c E x t) := by
  cases ha : accepts c E (s.lastMdds x.m.id) x with
  | true =>
    obtain ⟨hsize, hv⟩ := hx ha
    rw [accepts, Bool.and_eq_true, Bool.not_eq_true'] at ha
    have hstale : stale (t.last x.m.id) x.m = false := h.last x.m.id ▸ ha.2
    obtain ⟨u, hu⟩ : ∃ u, t.persist x.m = some u := ⟨_, if_pos hsize⟩
    obtain ⟨-, hheld, hslots⟩ := last_persist hu
    have hsettle : (MetaDataCert.noted x s.tally).settle E (s.lastMdds x.m.id) x.m =
        (MetaDataCert.noted x t.tally).settle E (u.last x.m.id) (u.slots x.m.id) := by
      obtain ⟨b, hb⟩ := noted_eq x t.tally
      rw [h.tally, hb, hslots, Function.update_self]
      exact Tally.settle_congr (oldVote_same h hu hv)
    simp only [MetaDataCert.add, add, ha.1, ha.2, hstale,
      not_self ha.1, hu, if_true, Bool.false_eq_true, if_false, Option.bind_eq_bind,
      Option.bind_some]
    change Option.Rel _ (((MetaDataCert.noted x s.tally).settle E _ _).bind _)
      (((MetaDataCert.noted x t.tally).settle E _ _).bind _)
    rw [hsettle]
    cases hr : (MetaDataCert.noted x t.tally).settle E (u.last x.m.id) (u.slots x.m.id) with
    | none => exact .none
    | some r =>
      refine .some ⟨⟨rfl, fun i => ?_⟩, rfl⟩
      by_cases hi : i = x.m.id
      · subst hi
        simp [last, hslots]
      · simpa [last, hi, hheld, hslots] using h.last i
  | false =>
    have ha' : accepts c E (t.last x.m.id) x = false := h.last x.m.id ▸ ha
    rw [add_of_not_accepts ha]
    rw [accepts, Bool.and_eq_false_iff, Bool.not_eq_false'] at ha'
    refine (?_ : some ({ t with tally := MetaDataCert.noted x t.tally }, false) =
      add c E x t) ▸ .some ⟨h.noted x, rfl⟩
    by_cases hv : (x.mine || x.m.verify c E x.mac) = true
    · have hst := ha'.resolve_left (by simp [hv])
      simp only [add, hv, not_self hv, hst, if_true, Bool.false_eq_true, if_false]
      rfl
    · simp only [add, hv]
      rfl

/-- **The two builds agree** in every run whose messages fit the block and vote as those that they
replace: after each call the values, the counts, `c` and `d` are the same, and so is what the call
returns. -/
theorem add_agrees (h₀ : Same s t) {xs : List (Incoming P)}
    (hx : Run.Meets (MetaDataCert.step c E) (SameVotes c E) s xs) :
    ∀ pre x, pre ++ [x] <+: xs →
      Option.Rel (fun r r' => r.1.tally = r'.1.tally ∧ r.2 = r'.2)
        ((Run.run (MetaDataCert.step c E) s pre).bind (MetaDataCert.add c E x))
          ((Run.run (step c E) t pre).bind (add c E x)) := by
  rintro pre x ⟨post, rfl⟩
  rw [List.append_assoc] at hx
  refine Run.rel_bind (Run.agree (R := Same) (fun _ _ _ h hs => ?_) h₀ (Run.meets_prefix hx))
    fun s' t' hs' h' => ?_
  · rw [MetaDataCert.step, step, Option.map_eq_bind, Option.map_eq_bind]
    exact Run.rel_bind (add_same h hs) fun _ _ _ h => .some h.1
  · exact Run.rel_mono (add_same h' (Run.meets_append hx hs').2.1) fun _ _ h => ⟨h.1.tally, h.2⟩

/-- Replica 1 replaces its message. The value of the old one keeps its vote in the static build. -/
theorem old_vote_kept : ∃ s t,
    Run.run (MetaDataCert.step CowState.twoBlocks ⟨4, 1, 0, false⟩)
      (MetaDataCert.new ⟨4, 1, 0, false⟩ Replica.fourReplicas.P)
        [fromReplica 1 0 [7], fromReplica 1 2 [8]] = some s ∧
      Run.run (step CowState.twoBlocks ⟨4, 1, 0, false⟩) (new ⟨4, 1, 0, false⟩
          fun _ => (fromReplica 0 0 []).m)
        [fromReplica 1 0 [7], fromReplica 1 2 [8]] = some t ∧
      s.tally.vals = [⟨8, 2, 1⟩] ∧ t.tally.vals = [⟨7, 0, 1⟩, ⟨8, 2, 1⟩] := by
  obtain ⟨s, hs, h⟩ := (Option.any_eq_true _ _).1
    (show (Run.run (MetaDataCert.step CowState.twoBlocks ⟨4, 1, 0, false⟩)
    (MetaDataCert.new ⟨4, 1, 0, false⟩ Replica.fourReplicas.P) [fromReplica 1 0 [7],
      fromReplica 1 2 [8]]).any
      (fun s => s.tally.vals == [⟨8, 2, 1⟩]) = true by decide +kernel)
  obtain ⟨t, ht, h'⟩ :=
    (Option.any_eq_true _ _).1 (show (Run.run (step CowState.twoBlocks ⟨4, 1, 0, false⟩)
    (new ⟨4, 1, 0, false⟩ fun _ => (fromReplica 0 0 []).m) [fromReplica 1 0 [7],
      fromReplica 1 2 [8]]).any
      (fun t => t.tally.vals == [⟨7, 0, 1⟩, ⟨8, 2, 1⟩]) = true by decide +kernel)
  exact ⟨s, t, hs, ht, beq_iff_eq.1 h, beq_iff_eq.1 h'⟩

/-- With the same digests and one more, it votes as before. -/
theorem add_agrees_seven :
    Option.Rel (fun r r' => r.1.tally = r'.1.tally ∧ r.2 = r'.2)
      ((Run.run (MetaDataCert.step CowState.twoBlocks ⟨4, 1, 0, false⟩)
            (MetaDataCert.new ⟨4, 1, 0, false⟩ Replica.fourReplicas.P)
        [fromReplica 1 0 [7]]).bind
          (MetaDataCert.add CowState.twoBlocks ⟨4, 1, 0, false⟩ (fromReplica 1 0 [7, 8])))
      ((Run.run (step CowState.twoBlocks ⟨4, 1, 0, false⟩) (new ⟨4, 1, 0, false⟩
            fun _ => (fromReplica 0 0 []).m)
        [fromReplica 1 0 [7]]).bind
          (add CowState.twoBlocks ⟨4, 1, 0, false⟩ (fromReplica 1 0 [7, 8]))) := by
  refine add_agrees (new_same _) ?_ [fromReplica 1 0 [7]]
    _ (List.prefix_refl [fromReplica 1 0 [7], fromReplica 1 0 [7, 8]])
  refine ⟨fun _ => ⟨by decide, nofun⟩, fun s hs =>
    ⟨fun _ => ⟨by decide, fun om hom e he => ?_⟩, fun _ _ => trivial⟩⟩
  have hvals : s.tally.vals = [⟨7, 0, 1⟩] ∧
    (s.lastMdds 1).all (fun om => om.votes ⟨7, 0, 1⟩ == some true) = true := by
    have h : (MetaDataCert.step CowState.twoBlocks ⟨4, 1,
      0, false⟩ (MetaDataCert.new ⟨4, 1, 0, false⟩ Replica.fourReplicas.P)
      (fromReplica 1 0 [7])).any (fun s => decide (s.tally.vals = [⟨7, 0, 1⟩] ∧
        (s.lastMdds 1).all (fun om => om.votes ⟨7, 0, 1⟩ == some true) = true)) =
          true := by decide +kernel
    rw [hs, Option.any_some] at h
    exact of_decide_eq_true h
  rw [hvals.1, List.mem_singleton] at he
  have hall := hvals.2
  rw [show s.lastMdds 1 = some om from hom, Option.all_some] at hall
  rw [he, beq_iff_eq.1 hall]
  decide

end StaticMetaDataCert

end TinyBFT
