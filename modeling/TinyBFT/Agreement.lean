import TinyBFT.Network

/-!
# Agreement inside a view

Of two pre-prepares for one view and sequence number that correct replicas hold complete
certificates for, or have executed as committed, both have one digest. A complete certificate counts
the prepares of `2f` backups. If the primary of the view is faulty, at most `f - 1` of the `3f`
backups are, and two certificates share a correct backup, which votes once. If the primary is
correct, every correct backup has voted for what the primary has fixed for the sequence number
(`Proposed`): the pre-prepare that it created, or what its new-view message picks; and these are the
same.

What a correct replica has executed as committed has the commits of `2f + 1` replicas. Any `2f + 1`
replicas, such as those whose view-changes a new-view message rests on, share a correct one with
them (`committed_locked`).
-/

namespace TinyBFT

namespace Network

open Replica (HRun RunInv Issued Motive Voter Backed)
open Quorum (Election)

variable {cfg : Cfg} {correct signers : Finset Nat} {w : Network} {i j k : Nat} {v n : Int}
    {d d' : Digest}

/-! ## The votes of the backups -/

/-- The prepares of the backups of view `v` for sequence number `n`. -/
def election (cfg : Cfg) (correct : Finset Nat) (w : Network) (v n : Int) :
    Election Nat Digest where
  voters := (Finset.range cfg.n).erase (cfg.primary v)
  faulty := (Finset.range cfg.n).erase (cfg.primary v) \ correct
  voted i d := ∃ p ∈ (w.replicas i).votes, p.view = v ∧ p.seqno = n ∧ p.digest = d

theorem mem_correct (hi : i ∈ (election cfg correct w v n).voters)
    (hc : i ∉ (election cfg correct w v n).faulty) : i ∈ correct := by
  by_contra hne
  exact hc (Finset.mem_sdiff.2 ⟨hi, hne⟩)

theorem election_single (hs : Sound cfg correct signers w) :
    (election cfg correct w v n).Single := by
  rintro i hi hc d d' ⟨p, hp, hv, hn, rfl⟩ ⟨p', hp', hv', hn', rfl⟩
  exact (hs.runs i (mem_correct hi hc)).record.agreed p
    hp p' hp' (hv.trans hv'.symm) (hn.trans hn'.symm)

theorem card_voters : (election cfg correct w v n).voters.card = 3 * cfg.f := by
  have hmem : cfg.primary v ∈ Finset.range cfg.n := Finset.mem_range.2 (cfg.primary_lt v)
  have hcard := Finset.card_erase_of_mem hmem
  rw [Finset.card_range] at hcard
  exact hcard

theorem Deployed.card_incorrect (hd : Deployed cfg correct) :
    (Finset.range cfg.n \ correct).card ≤ cfg.f := by
  have hcard := Finset.card_sdiff_of_subset hd.subset
  rw [Finset.card_range] at hcard
  have := hd.faults
  omega

theorem card_faulty (hd : Deployed cfg correct) :
    (election cfg correct w v n).faulty.card ≤ cfg.f := by
  have hsub : (election cfg correct w v n).faulty ⊆ Finset.range cfg.n \ correct :=
    Finset.sdiff_subset_sdiff (Finset.erase_subset _ _) (Finset.Subset.refl _)
  exact (Finset.card_le_card hsub).trans hd.card_incorrect

/-- Where the primary is faulty, one backup less is. -/
theorem card_faulty_lt (hd : Deployed cfg correct) (hk : cfg.primary v ∉ correct) :
    (election cfg correct w v n).faulty.card < cfg.f := by
  have hmem : cfg.primary v ∈ Finset.range cfg.n \ correct :=
    Finset.mem_sdiff.2 ⟨Finset.mem_range.2 (cfg.primary_lt v), hk⟩
  have hsub : (election cfg correct w v n).faulty ⊆
    (Finset.range cfg.n \ correct).erase (cfg.primary v) := by
    intro i hi
    obtain ⟨hi, hc⟩ := Finset.mem_sdiff.1 hi
    obtain ⟨hne, hi⟩ := Finset.mem_erase.1 hi
    exact Finset.mem_erase.2 ⟨hne, Finset.mem_sdiff.2 ⟨hi, hc⟩⟩
  have hpos := Finset.card_pos.2 ⟨_, hmem⟩
  have := hd.card_incorrect
  have := Finset.card_le_card hsub
  rw [Finset.card_erase_of_mem hmem] at this
  omega

/-- The backups behind what a correct replica has prepared. -/
theorem Sound.certifies
    (hb : Backed cfg i (heard cfg correct signers w) (w.replicas i).votes v n d) :
    ∃ A, (election cfg correct w v n).Certifies A d ∧ 2 * cfg.f ≤ A.card ∧ 0 < A.card := by
  obtain ⟨L, hnd, hle, hpos, hL⟩ := hb
  have hcard : (L.map Prepare.id).toFinset.card = L.length := by
    rw [List.toFinset_card_of_nodup hnd, List.length_map]
  refine ⟨(L.map Prepare.id).toFinset, ⟨fun k hk => ?_, fun k hk hc => ?_⟩, by omega, by omega⟩
  · obtain ⟨p, hp, rfl⟩ := List.mem_map.1 (List.mem_toFinset.1 hk)
    obtain ⟨hvoter, hv, -⟩ := hL p hp
    exact Finset.mem_erase.2 ⟨hv ▸ hvoter.backup, Finset.mem_range.2 hvoter.lt⟩
  · obtain ⟨p, hp, rfl⟩ := List.mem_map.1 (List.mem_toFinset.1 hk)
    obtain ⟨hvoter, hv, hn, hd⟩ := hL p hp
    have hmem : p.id ∈ (election cfg correct w v n).voters :=
      Finset.mem_erase.2 ⟨hv ▸ hvoter.backup, Finset.mem_range.2 hvoter.lt⟩
    refine ⟨p, ?_, hv, hn, hd⟩
    by_cases hi : p.id = i
    · exact hi ▸ hvoter.own hi
    · exact hvoter.heard hi (mem_correct hmem hc)

/-! ## What the primary has fixed -/

/-- The primary of the view has created a pre-prepare with the digest, or announced a new view in
which it is picked. -/
def Proposed (cfg : Cfg) (correct : Finset Nat) (w : Network) (v n : Int) (d : Digest) : Prop :=
  (∃ m, Issued (w.replicas (cfg.primary v)) m ∧ m.view = v ∧ m.seqno = n ∧ m.digest = d) ∨
    ∃ nv, (none, .newView nv) ∈ (w.replicas (cfg.primary v)).sent ∧
      nv.v = v ∧ nv.Picks cfg (Occurs correct w) n d

theorem known_occurs (hi : i ∈ correct) {vc : ViewChange} :
    Replica.Known (heard cfg correct signers w) (w.replicas i) vc → Occurs correct w vc
  | .inl h => .inl h
  | .inr h => .inr ⟨i, hi, h⟩

/-- **A correct replica votes** for what a correct primary has fixed. -/
theorem Sound.proposed (hs : Sound cfg correct signers w) (hi : i ∈ correct) {p : Prepare}
    (hp : p ∈ (w.replicas i).votes) (hk : cfg.primary p.view ∈ correct) :
    Proposed cfg correct w p.view p.seqno p.digest := by
  obtain ⟨-, -, ⟨m, hm, hv, hn, hd⟩ | ⟨nv, hnv, hv, hpick⟩⟩ := (hs.runs i hi).record.motive p hp
  · exact .inl ⟨m, hv ▸ hm (hv ▸ hk), hv, hn, hd⟩
  · exact .inr ⟨nv, hv ▸ hnv (hv ▸ hk), hv, hpick.mono fun _ => known_occurs hi⟩

/-- A correct primary fixes one digest. -/
theorem Proposed.unique (hs : Sound cfg correct signers w) (hn : NoCollision cfg (Occurs correct w))
    (hk : cfg.primary v ∈ correct) (h : Proposed cfg correct w v n d)
    (h' : Proposed cfg correct w v n d') : d = d' := by
  have hrec := (hs.runs _ hk).record
  have hnum := (hs.numbered _ hk).numbered
  have hpick : ∀ {m : PrePrepareMsg} {nv : NewView} {e : Digest},
    Issued (w.replicas (cfg.primary v)) m → m.view = v → m.seqno = n →
      (none, .newView nv) ∈ (w.replicas (cfg.primary v)).sent →
        nv.v = v → nv.Picks cfg (Occurs correct w) n e → m.digest = e := by
    rintro m nv e ⟨c, hc, rfl⟩ hv hseq hnv hvn hp
    obtain ⟨hlo, hhi⟩ := hp.range
    have hown := hrec.picked c hc nv hnv (hvn.trans hv.symm)
      (by rw [hseq]; exact hlo) (by rw [hseq]; exact hhi)
    rw [hseq] at hown
    exact (hown.mono fun _ => known_occurs hk).unique hn hp
  rcases h with ⟨m, hm, hv, hseq, rfl⟩ | ⟨nv, hnv, hv, hp⟩ <;>
    rcases h' with ⟨m', hm', hv', hseq', rfl⟩ | ⟨nv', hnv', hv', hp'⟩
  · obtain ⟨c, hc, rfl⟩ := hm
    obtain ⟨c', hc', rfl⟩ := hm'
    rw [hnum.unique c hc c' hc' (hv.trans hv'.symm) (hseq.trans hseq'.symm)]
  · exact hpick hm hv hseq hnv' hv' hp'
  · exact (hpick hm' hv' hseq' hnv hv hp).symm
  · rw [hrec.once nv nv' hnv hnv' (hv.trans hv'.symm)] at hp
    exact hp.unique hn hp'

/-! ## Agreement -/

variable (hd : Deployed cfg correct)

include hd

theorem Sound.backed_proposed (hs : Sound cfg correct signers w) (hk : cfg.primary v ∈ correct)
    (hb : Backed cfg i (heard cfg correct signers w) (w.replicas i).votes v n d) :
    Proposed cfg correct w v n d := by
  obtain ⟨A, hA, hle, hpos⟩ := Sound.certifies hb
  have := card_faulty (w := w) (v := v) (n := n) hd
  obtain ⟨q, hq, hc, p, hp, rfl, rfl, rfl⟩ := hA.exists_voted (by omega)
  exact hs.proposed (mem_correct hq hc) hp hk

/-- What two correct replicas have prepared for one view and sequence number has one digest. -/
theorem Sound.backed_agree (hs : Sound cfg correct signers w)
    (hn : NoCollision cfg (Occurs correct w))
    (hb : Backed cfg i (heard cfg correct signers w) (w.replicas i).votes v n d)
    (hb' : Backed cfg j (heard cfg correct signers w) (w.replicas j).votes v n d') : d = d' := by
  by_cases hk : cfg.primary v ∈ correct
  · exact (hs.backed_proposed hd hk hb).unique hs hn hk (hs.backed_proposed hd hk hb')
  · obtain ⟨A, hA, hle, -⟩ := Sound.certifies hb
    obtain ⟨B, hB, hle', -⟩ := Sound.certifies hb'
    have := card_faulty_lt (w := w) (n := n) hd hk
    exact hA.unique (election_single hs) hB (by rw [card_voters]; omega)

omit hd in
theorem run_eq (w : Network) (as : List Action) :
    Run.run (fun w a => some (step cfg w a)) w as = some (run cfg w as) := by
  induction as generalizing w with
  | nil => rfl
  | cons a as ih => exact ih (step cfg w a)

omit hd in
theorem run_append (w : Network) (as bs : List Action) :
    run cfg w (as ++ bs) = run cfg (run cfg w as) bs := List.foldl_append ..

/-- The replica runs, and has a complete certificate for the pre-prepare. -/
def Prepared (s : Replica) (m : PrePrepareMsg) : Prop :=
  s.halted = false ∧ ∃ k, (s.plog.elems k).pp = some m ∧ (s.plog.elems k).isComplete = some true

omit hd in
theorem Sound.prepared_backed (hs : Sound cfg correct signers w) (hi : i ∈ correct)
    {m : PrePrepareMsg} (hm : Prepared (w.replicas i) m) :
    Backed cfg i (heard cfg correct signers w) (w.replicas i).votes m.view m.seqno m.digest := by
  obtain ⟨hh, k, hpp, hc⟩ := hm
  obtain ⟨m', hm', hb⟩ := (((hs.runs i hi).running hh).2.1.certs k).backed hc
  rw [hpp] at hm'
  cases hm'
  exact hb

/-- **What correct replicas have executed as committed** in one view for one sequence number has one
digest. -/
theorem committed_agree (mem : Nat → Mem) (as : List Action)
    (has : Admitted cfg correct (new cfg mem) as)
    (hn : NoCollision cfg (Occurs correct (run cfg (new cfg mem) as))) (hi : i ∈ correct)
    (hj : j ∈ correct)
    (m m' : PrePrepareMsg) (hm : m ∈ ((run cfg (new cfg mem) as).replicas i).committed)
    (hm' : m' ∈ ((run cfg (new cfg mem) as).replicas j).committed) (hview : m.view = m'.view)
    (hseq : m.seqno = m'.seqno) : m.digest = m'.digest := by
  obtain ⟨hs, -⟩ := run_sound hd as (sound_new mem) has (signed_empty _ as)
  have hb' := (hs.runs j hj).record.committed m' hm'
  rw [← hview, ← hseq] at hb'
  exact hs.backed_agree hd hn ((hs.runs i hi).record.committed m hm) hb'

/-- **What a correct replica has executed as committed** was voted for by `2f` backups, and fixed by
the primary of its view if this one is correct. -/
theorem committed_voted (mem : Nat → Mem) (as : List Action)
    (has : Admitted cfg correct (new cfg mem) as) (hi : i ∈ correct) (m : PrePrepareMsg)
    (hm : m ∈ ((run cfg (new cfg mem) as).replicas i).committed) :
    (∃ A ⊆ (Finset.range cfg.n).erase (cfg.primary m.view),
        2 * cfg.f ≤ A.card ∧ 0 < A.card ∧ ∀ k ∈ A, k ∈ correct →
      ∃ p, (none, .prepare p) ∈ ((run cfg (new cfg mem) as).replicas k).sent ∧
        p.view = m.view ∧ p.seqno = m.seqno ∧ p.digest = m.digest) ∧
    (cfg.primary m.view ∈ correct →
        Proposed cfg correct (run cfg (new cfg mem) as) m.view m.seqno m.digest) := by
  obtain ⟨hs, -⟩ := run_sound hd as (sound_new mem) has (signed_empty _ as)
  have hb := (hs.runs i hi).record.committed m hm
  refine ⟨?_, fun hk => hs.backed_proposed hd hk hb⟩
  obtain ⟨A, hA, hle, hpos⟩ := Sound.certifies hb
  refine ⟨A, hA.subset, hle, hpos, fun k hk hc => ?_⟩
  obtain ⟨p, hp, hv, hn, hd⟩ := hA.voted k hk fun hf => (Finset.mem_sdiff.1 hf).2 hc
  exact ⟨p, Replica.mem_votes.1 hp, hv, hn, hd⟩

/-! ## Commits -/

omit hd in
/-- A correct replica that has sent a commit keeps a complete certificate, until it leaves the view
or discards the sequence number. -/
theorem Sound.prepared (hs : Sound cfg correct signers w) (hk : k ∈ correct)
    (hu : (w.replicas k).plog.head < 2 ^ 31) (hc : (none, .commit ⟨v, n, k⟩) ∈ (w.replicas k).sent)
    (hrun : (w.replicas k).halted = false) (hv : (w.replicas k).v = v)
    (hn : (w.replicas k).plog.head ≤ n) :
    ∃ pp, Prepared (w.replicas k) pp ∧ pp.view = v ∧ pp.seqno = n := by
  have hlocked := ((hs.runs k hk).running hrun).2.2 hu
  have hwin : (w.replicas k).plog.withinRange cfg.P.maxOut n = true :=
    Replica.mem_window.2 ⟨hn, (hlocked.past _ hc).2 hv.symm⟩
  have hplaced := hlocked.placed n hwin
  have hcomplete := hplaced.pledged _ hc hv.symm rfl
  obtain ⟨pp, hpp, -⟩ := PreparedCert.isComplete_iff.1 hcomplete
  obtain ⟨hview, hseq⟩ := hplaced.prePrepare hcomplete hpp
  exact ⟨pp, ⟨hrun, _, hpp, hcomplete⟩, hview.trans hv, hseq⟩

omit hd

/-! ## A run of four replicas -/

/-- The request of a client, with sequence number 1, at two backups; the fourth replica is not
correct. -/
def prepareOne : List (Nat × Replica.Event) :=
  [(0, .request [1]), (1, .prePrepare ⟨0, 1, 2, [1]⟩ true true true),
    (2, .prePrepare ⟨0, 1, 2, [1]⟩ true true true),
    (1, .prepare ⟨0, 1, 2, 2, false⟩ true)]

def commitOne : List (Nat × Replica.Event) :=
  [(2, .prepare ⟨0, 1, 2, 1, false⟩ true), (1, .commit ⟨0, 1, 0⟩ true),
    (1, .commit ⟨0, 1, 2⟩ true), (2, .commit ⟨0, 1, 0⟩ true),
    (2, .commit ⟨0, 1, 1⟩ true)]

abbrev acts (es : List (Nat × Replica.Event)) : List Action :=
  es.map fun e => (e.1, Replica.Oracle.none, e.2)

abbrev fourStart : Network := new Replica.fourReplicas fun _ _ => []

theorem deployed_three : Deployed Replica.fourReplicas {0, 1, 2} :=
  ⟨by decide, by decide, by decide⟩

theorem admitted_one :
    Admitted Replica.fourReplicas {0, 1, 2} fourStart (acts prepareOne ++ acts commitOne) :=
  admitted_of_admits (by decide +kernel)

/-- Both backups vote for what the primary has created. -/
theorem committed_voted_one :
    (∃ A ⊆ (Finset.range 4).erase 0, 2 ≤ A.card ∧ 0 < A.card ∧ ∀ k ∈ A,
        k ∈ ({0, 1, 2} : Finset Nat) →
      ∃ p, (none, .prepare p) ∈
        ((run Replica.fourReplicas fourStart (acts prepareOne ++ acts commitOne)).replicas k).sent ∧
        p.view = 0 ∧ p.seqno = 1 ∧ p.digest = 2) ∧
    (0 ∈ ({0, 1, 2} : Finset Nat) →
      Proposed Replica.fourReplicas {0, 1,
        2} (run Replica.fourReplicas fourStart (acts prepareOne ++ acts commitOne)) 0 1 2) :=
  committed_voted deployed_three (fun _ _ => []) (acts prepareOne ++ acts commitOne)
    admitted_one (i := 1) (by decide) ⟨0, 1, 2, [1]⟩ (by decide +kernel)

/-- Replica 0 is not correct, and proposes two batches for sequence number 1. -/
def equivocate : List (Nat × Replica.Event) :=
  [(1, .prePrepare ⟨0, 1, 2, [1]⟩ true true true), (2, .prePrepare ⟨0, 1, 2, [1]⟩ true true true),
    (3, .prePrepare ⟨0, 1, 3, [1, 1]⟩ true true true),
    (1, .prepare ⟨0, 1, 3, 3, false⟩ true), (1, .prepare ⟨0, 1, 2, 2, false⟩ true),
      (2, .prepare ⟨0, 1, 2, 1, false⟩ true),
    (3, .prepare ⟨0, 1, 2, 1, false⟩ true), (1, .commit ⟨0, 1, 0⟩ true),
      (1, .commit ⟨0, 1, 2⟩ true), (2, .commit ⟨0, 1, 0⟩ true),
    (2, .commit ⟨0, 1, 1⟩ true), (3, .commit ⟨0, 1, 0⟩ true), (3, .commit ⟨0, 1, 1⟩ true)]

/-- Two backups execute the first one, and the third none. -/
theorem committed_agree_equivocate :
    ((run Replica.fourReplicas fourStart (acts equivocate)).replicas 1).committed =
      [⟨0, 1, 2, [1]⟩] ∧
      ((run Replica.fourReplicas fourStart (acts equivocate)).replicas 3).committed = [] ∧
      ∃ m ∈ ((run Replica.fourReplicas fourStart (acts equivocate)).replicas 2).committed,
        (2 : Digest) = m.digest := by
  have h2 : (⟨0, 1, 2, [1]⟩ : PrePrepareMsg) ∈
    ((run Replica.fourReplicas fourStart (acts equivocate)).replicas 2).committed := by
    decide +kernel
  exact ⟨by decide +kernel, by decide +kernel, _, h2,
    @committed_agree Replica.fourReplicas {1, 2, 3} 1 2 ⟨by decide, by decide, by decide⟩
    (fun _ _ => []) (acts equivocate) (admitted_of_admits (by decide +kernel))
      (noCollision_of_quiet rfl (by decide +kernel))
    (by decide) (by decide) ⟨0, 1, 2, [1]⟩ ⟨0, 1, 2, [1]⟩ (by decide +kernel) h2 rfl rfl⟩

end Network

end TinyBFT
