import TinyBFT.ViewInfo
import TinyBFT.Lib.Recent
import TinyBFT.Lib.Run

/-!
# What `View_info::prepare` remembers (`View_info.cc:60-172`)

An entry of the log of past requests has a current digest and the old ones of `ods`. It keeps a
digest until there is no other place for a newer one.

`Traced` adds to a `View_info` what was recorded in it, newest first. `recent` are the digests of a
sequence number since its last `add_complete`, which starts anew.

`prepare` does not look at the views of the old digests, so it also finds those that `clear` has
left for the next sequence number of the slot.
-/

namespace TinyBFT

open Recent

/-! ## Entries -/

namespace OReqInfo

variable {f : Nat} {ri : OReqInfo} {r : List (Digest × Int)} {ods : List ODigestInfo}
    {c d : Digest} {v w lv : Int}

/-- The last view in which the current digest was sent. -/
def lastView (ri : OReqInfo) : Int := if ri.m.isSome then ri.lv else ri.v

/-- There are `f + 2` old digests. Where a digest has two places, the second one is not in use. -/
structure Shaped (f : Nat) (ods : List ODigestInfo) : Prop where
  length : ods.length = f + 2
  unique : ods.Pairwise fun a b => a.d = b.d → b.v < 0

/-- The entry has the digests of `r`: the first one is the current digest, and the old ones that are
no older than those of `r` are among them. -/
structure Tracks (f : Nat) (ri : OReqInfo) (r : List (Digest × Int)) : Prop where
  ordered : Ordered r
  nonneg : ∀ e ∈ r, 0 ≤ e.2
  current : ∀ e ∈ r.head?, ri.d = e.1 ∧ ri.lastView = e.2
  old : ∀ o ∈ ri.ods, (∀ e ∈ r, o.v < e.2) ∨ ∃ w, (o.d, w) ∈ r ∧ o.v ≤ w ∧ (o.d ≠ ri.d → o.v = w)
  kept : ∀ e ∈ r.tail.take (f + 1), (⟨e.1, e.2⟩ : ODigestInfo) ∈ ri.ods

/-- All views of the entry are below `w`. -/
def Below (ri : OReqInfo) (w : Int) : Prop := ri.v < w ∧ ri.lv < w ∧ ∀ o ∈ ri.ods, o.v < w

theorem oldest_spec : ∀ {os : List ODigestInfo} {i mini : Nat} {minv : Int},
    (oldest os i mini minv = mini ∧ ∀ o ∈ os, minv ≤ o.v) ∨
      ∃ j o, oldest os i mini minv = i + j ∧ os[j]? = some o ∧ o.v < minv ∧ ∀ p ∈ os, o.v ≤ p.v
  | [], _, _, _ => .inl ⟨rfl, nofun⟩
  | o :: os, i, mini, minv => by
    rw [oldest]
    split
    · rename_i hlt
      rcases @oldest_spec os (i + 1) i o.v with ⟨h1, h2⟩ | ⟨j, p, h1, h2, h3, h4⟩
      · exact .inr ⟨0, o, h1, rfl, hlt, by simpa using h2⟩
      · refine .inr ⟨j + 1, p, by rw [h1]; omega, by simpa using h2, by omega, fun q hq => ?_⟩
        rcases List.mem_cons.1 hq with rfl | hq
        · omega
        · exact h4 q hq
    · rename_i hge
      rcases @oldest_spec os (i + 1) mini minv with ⟨h1, h2⟩ | ⟨j, p, h1, h2, h3, h4⟩
      · refine .inl ⟨h1, fun q hq => ?_⟩
        rcases List.mem_cons.1 hq with rfl | hq
        · omega
        · exact h2 q hq
      · refine .inr ⟨j + 1, p, by rw [h1]; omega, by simpa using h2, h3, fun q hq => ?_⟩
        rcases List.mem_cons.1 hq with rfl | hq
        · omega
        · exact h4 q hq

/-- What `remember` does: the place of the digest gets the view, or that of the oldest one gets the
digest. -/
theorem remember_cases (c : Digest) (lv : Int) (hne : ods ≠ []) (hv : ∀ o ∈ ods, o.v < seqnoMax) :
    ∃ i o, ods[i]? = some o ∧ remember ods c lv = ods.set i ⟨c, lv⟩ ∧
      (o.d = c ∧ (∀ j p, j < i → ods[j]? = some p → p.d ≠ c) ∨ (∀ p ∈ ods, p.d ≠ c) ∧ ∀ p ∈ ods,
          o.v ≤ p.v) := by
  unfold remember
  cases hfind : ods.findIdx? fun o => o.d == c with
  | some i =>
    obtain ⟨hi, hd, hlt⟩ := List.findIdx?_eq_some_iff_getElem.1 hfind
    refine ⟨i, ods[i], List.getElem?_eq_getElem hi, ?_, .inl ⟨beq_iff_eq.1 hd, fun j p hj hp => ?_⟩⟩
    · dsimp only
      rw [List.modify_eq_set_getElem?, List.getElem?_eq_getElem hi, ← beq_iff_eq.1 hd]
      rfl
    · obtain ⟨hj', rfl⟩ := List.getElem?_eq_some_iff.1 hp
      simpa using hlt j hj
  | none =>
    have hnone : ∀ p ∈ ods, p.d ≠ c :=
      fun p hp => by simpa using List.findIdx?_eq_none_iff.1 hfind p hp
    rcases @oldest_spec ods 0 0 seqnoMax with ⟨-, h2⟩ | ⟨j, o, h1, h2, -, h4⟩
    · obtain ⟨o, os, rfl⟩ := List.exists_cons_of_ne_nil hne
      have := h2 o List.mem_cons_self
      have := hv o List.mem_cons_self
      omega
    · exact ⟨j, o, h2, by rw [h1, Nat.zero_add], .inr ⟨hnone, h4⟩⟩

theorem shaped_iff : Shaped f ods ↔ ods.length = f + 2 ∧
    ∀ (i j : Nat) (a b : ODigestInfo), i < j → ods[i]? = some a →
      ods[j]? = some b → a.d = b.d → b.v < 0 := by
  constructor
  · rintro ⟨h1, h2⟩
    refine ⟨h1, fun i j a b hij ha hb => ?_⟩
    obtain ⟨hi, rfl⟩ := List.getElem?_eq_some_iff.1 ha
    obtain ⟨hj, rfl⟩ := List.getElem?_eq_some_iff.1 hb
    exact List.pairwise_iff_getElem.1 h2 i j hi hj hij
  · rintro ⟨h1, h2⟩
    exact ⟨h1, List.pairwise_iff_getElem.2 fun i j hi hj hij =>
      h2 i j _ _ hij (List.getElem?_eq_getElem hi) (List.getElem?_eq_getElem hj)⟩

theorem Shaped.ne_nil (h : Shaped f ods) : ods ≠ [] :=
  List.ne_nil_of_length_pos (by rw [h.length]; omega)

theorem Shaped.remember (h : Shaped f ods) (hv : ∀ o ∈ ods, o.v < seqnoMax) :
    Shaped f (remember ods c lv) := by
  obtain ⟨i, o, hi, hr, hcase⟩ := remember_cases c lv h.ne_nil hv
  obtain ⟨h1, h2⟩ := shaped_iff.1 h
  rw [hr]
  refine shaped_iff.2 ⟨by rw [List.length_set, h1], fun j k a b hjk ha hb hd => ?_⟩
  have hlt : i < ods.length := (List.getElem?_eq_some_iff.1 hi).1
  by_cases hji : i = j
  · subst hji
    rw [List.getElem?_set_self hlt] at ha
    rw [List.getElem?_set_ne (by omega)] at hb
    cases ha
    rcases hcase with ⟨hod, -⟩ | ⟨hne, -⟩
    · exact h2 i k o b hjk hi hb (hod.trans hd)
    · exact absurd hd.symm (hne b (List.mem_of_getElem? hb))
  · rw [List.getElem?_set_ne hji] at ha
    by_cases hki : i = k
    · subst hki
      rw [List.getElem?_set_self hlt] at hb
      cases hb
      rcases hcase with ⟨-, hbefore⟩ | ⟨hne, -⟩
      · exact absurd hd (hbefore j a hjk ha)
      · exact absurd hd (hne a (List.mem_of_getElem? ha))
    · rw [List.getElem?_set_ne hki] at hb
      exact h2 j k a b hjk ha hb hd

theorem Shaped.clear (h : Shaped f ods) : Shaped f (ods.map fun o => { o with v := -1 }) where
  length := by rw [List.length_map, h.length]
  unique := by
    rw [List.pairwise_map]
    exact h.unique.imp fun _ _ => by
      show (-1 : Int) < 0
      decide

/-- An old digest is a former one, or the new one. -/
theorem mem_remember (hne : ods ≠ []) (hv : ∀ o ∈ ods, o.v < seqnoMax) {o : ODigestInfo}
    (ho : o ∈ remember ods c lv) : o ∈ ods ∨ o = ⟨c, lv⟩ := by
  obtain ⟨i, _, -, hr, -⟩ := remember_cases c lv hne hv
  rw [hr] at ho
  exact List.mem_or_eq_of_mem_set ho

theorem self_mem_remember (hne : ods ≠ []) (hv : ∀ o ∈ ods, o.v < seqnoMax) :
    (⟨c, lv⟩ : ODigestInfo) ∈ remember ods c lv := by
  obtain ⟨i, _, hi, hr, -⟩ := remember_cases c lv hne hv
  rw [hr]
  exact List.mem_set (List.getElem?_eq_some_iff.1 hi).1 _

/-- A place of the digest that was not in use stays so. -/
theorem mem_remember_self (h : Shaped f ods) (hv : ∀ o ∈ ods, o.v < seqnoMax) {o : ODigestInfo}
    (ho : o ∈ remember ods c lv) (hd : o.d = c) :
    o.v < 0 ∨ o = ⟨c, lv⟩ := by
  obtain ⟨i, p, hi, hr, hcase⟩ := remember_cases c lv h.ne_nil hv
  rw [hr] at ho
  obtain ⟨j, hj⟩ := List.mem_iff_getElem?.1 ho
  by_cases hij : i = j
  · subst hij
    rw [List.getElem?_set_self (List.getElem?_eq_some_iff.1 hi).1] at hj
    cases hj
    exact .inr rfl
  · rw [List.getElem?_set_ne hij] at hj
    rcases hcase with ⟨hpd, hbefore⟩ | ⟨hne, -⟩
    · rcases Nat.lt_or_gt_of_ne hij with hlt | hgt
      · exact .inl ((shaped_iff.1 h).2 i j p o hlt hi hj (hpd.trans hd.symm))
      · exact absurd hd (hbefore j o hgt hj)
    · exact absurd hd (hne o (List.mem_of_getElem? hj))

/-- **One of the last `f + 1` former digests is not given up**: all others would be newer. -/
theorem kept_remember (hs : Shaped f ods) (hv : ∀ o ∈ ods, o.v < seqnoMax) (hr : Ordered r)
    (hnn : ∀ e ∈ r, 0 ≤ e.2)
    (hold : ∀ o ∈ ods, (∀ e ∈ r, o.v < e.2) ∨ o.d = c ∨ ∃ w, (o.d, w) ∈ r ∧ o.v ≤ w)
    {e : Digest × Int} (he : e ∈ r.take (f + 1)) (hec : e.1 ≠ c)
    (hmem : (⟨e.1, e.2⟩ : ODigestInfo) ∈ ods) : (⟨e.1, e.2⟩ : ODigestInfo) ∈ remember ods c lv := by
  obtain ⟨i, o, hi, hrem, hcase⟩ := remember_cases c lv hs.ne_nil hv
  rw [hrem]
  have her : e ∈ r := List.mem_of_mem_take he
  by_cases hoe : o = ⟨e.1, e.2⟩
  · rcases hcase with ⟨hod, -⟩ | ⟨hne, hmin⟩
    · rw [hoe] at hod
      exact absurd hod hec
    · -- all old digests would be among the first `f + 1` of `r`
      have hge : ∀ p ∈ ods, e.2 ≤ p.v := fun p hp => by
        have := hmin p hp
        rwa [hoe] at this
      have hdist : (ods.map (·.d)).Nodup := by
        rw [List.nodup_iff_pairwise_ne, List.pairwise_map]
        refine hs.unique.imp_of_mem fun {a b} _ hb hab heq => ?_
        have := hge b hb
        have := hnn e her
        have := hab heq
        omega
      have hlen := Recent.length_le_of_take (r := r) (n := f + 1) hdist fun k hk => by
        obtain ⟨p, hp, rfl⟩ := List.mem_map.1 hk
        have hpe := hge p hp
        rcases hold p hp with hlt | heq | ⟨w, hw, hle⟩
        · have := hlt e her
          omega
        · exact absurd heq (hne p hp)
        · exact ⟨w, hr.mem_take_of_le he hw (by dsimp only; omega)⟩
      rw [List.length_map, hs.length] at hlen
      omega
  · obtain ⟨j, hj⟩ := List.mem_iff_getElem?.1 hmem
    have hij : i ≠ j := by
      rintro rfl
      rw [hi, Option.some.injEq] at hj
      exact hoe hj
    exact List.mem_iff_getElem?.2 ⟨j, by rw [List.getElem?_set_ne hij]; exact hj⟩

/-! ## Recording -/

theorem tracks_nil (ri : OReqInfo) : Tracks f ri [] :=
  ⟨ordered_nil, nofun, nofun, fun _ _ => .inl nofun, nofun⟩

/-- `add_incomplete` with the current digest. -/
theorem Tracks.same (h : Tracks f ri r) (hlt : ∀ e ∈ r, e.2 < w) (hb : ri.Below w) (hw : 0 ≤ w)
    (hd : ri.d = d) :
    Tracks f (ri.addIncomplete w d) (touch d w r) := by
  have hods : (ri.addIncomplete w d).ods = ri.ods ∧ (ri.addIncomplete w d).d = d ∧
    (ri.addIncomplete w d).lastView = w := by
    unfold addIncomplete lastView
    rw [if_pos hd]
    cases hm : ri.m with
    | none => simp [hd]
    | some m => simp [hd]
  obtain ⟨h1, h2, h3⟩ := hods
  refine ⟨h.ordered.touch hlt, fun e he => ?_, fun e he => ?_, fun o ho => ?_, fun e he => ?_⟩
  · rcases mem_touch.1 he with rfl | ⟨he, -⟩
    · exact hw
    · exact h.nonneg e he
  · cases he
    exact ⟨h2, h3⟩
  · rw [h1] at ho
    rcases h.old o ho with hlt' | ⟨u, hu, hle, heq⟩
    · refine .inl fun e he => ?_
      rcases mem_touch.1 he with rfl | ⟨he, -⟩
      · exact hb.2.2 o ho
      · exact hlt' e he
    · by_cases hod : o.d = d
      · exact .inr ⟨w, mem_touch.2 (.inl (by rw [hod])),
          (hb.2.2 o ho).le, fun hne => absurd (hod.trans h2.symm) hne⟩
      · exact .inr ⟨u, mem_touch.2 (.inr ⟨hu, hod⟩), hle, fun _ => heq (hd ▸ hod)⟩
  · rw [h1]
    have htail : (touch d w r).tail ⊆ r.tail ∧ (touch d w r).tail = r.tail.filter
      fun e => decide (e.1 ≠ d) := by
      cases r with
      | nil => exact ⟨fun _ h => h, rfl⟩
      | cons x r =>
        have hx : x.1 = d := (h.current x rfl).1.symm.trans hd
        have heq : (touch d w (x :: r)).tail = r.filter fun e => decide (e.1 ≠ d) := by
          simp [touch, hx]
        exact ⟨fun y hy => (List.mem_filter.1 (heq ▸ hy)).1, heq⟩
    have hall : r.tail.filter (fun e => decide (e.1 ≠ d)) = r.tail := by
      refine List.filter_eq_self.2 fun e he => decide_eq_true fun hed => ?_
      cases r with
      | nil => cases he
      | cons x r =>
        have hx : x.1 = d := (h.current x rfl).1.symm.trans hd
        exact (List.nodup_cons.1 h.ordered.keys).1 (List.mem_map.2 ⟨e, he, hed.trans hx.symm⟩)
    rw [htail.2, hall] at he
    exact h.kept e he

/-- `add_incomplete` with another digest: the current one becomes an old one. -/
theorem Tracks.other (h : Tracks f ri r) (hs : Shaped f ri.ods) (hlt : ∀ e ∈ r, e.2 < w)
    (hb : ri.Below w) (hw : 0 ≤ w) (hmax : w ≤ seqnoMax) (hd : ri.d ≠ d) :
    Tracks f (ri.addIncomplete w d) (touch d w r) := by
  have heq : ri.addIncomplete w d = { lv := ri.lastView, v := w, d, m := none,
                                      ods := OReqInfo.remember ri.ods ri.d ri.lastView } :=
    if_neg hd
  have hv : ∀ o ∈ ri.ods, o.v < seqnoMax := fun o ho => (hb.2.2 o ho).trans_le hmax
  have hlast : ri.lastView < w := by
    unfold lastView
    split
    · exact hb.2.1
    · exact hb.1
  have hnn : ∀ e ∈ touch d w r, 0 ≤ e.2 := fun e he => by
    rcases mem_touch.1 he with rfl | ⟨he, -⟩
    · exact hw
    · exact h.nonneg e he
  rw [heq]
  refine ⟨h.ordered.touch hlt, hnn, fun e he => by cases he; exact ⟨rfl, rfl⟩,
    fun o ho => ?_, fun e he => ?_⟩
  · by_cases hod : o.d = ri.d
    · rcases mem_remember_self hs hv ho hod with hneg | rfl
      · exact .inl fun e he => by have := hnn e he; omega
      · cases r with
        | nil =>
          refine .inl fun e he => ?_
          rcases mem_touch.1 he with rfl | ⟨he, -⟩
          · exact hlast
          · cases he
        | cons x r =>
          obtain ⟨h1, h2⟩ := h.current x rfl
          refine .inr ⟨ri.lastView, mem_touch.2 (.inr ⟨?_, hd⟩), le_rfl, fun _ => rfl⟩
          rw [h1, h2]
          exact List.mem_cons_self
    · have ho' : o ∈ ri.ods :=
        (mem_remember hs.ne_nil hv ho).resolve_right fun h => hod (congrArg ODigestInfo.d h)
      rcases h.old o ho' with hlt' | ⟨u, hu, hle, heq⟩
      · refine .inl fun e he => ?_
        rcases mem_touch.1 he with rfl | ⟨he, -⟩
        · exact hb.2.2 o ho'
        · exact hlt' e he
      · by_cases hod' : o.d = d
        · exact .inr ⟨w, mem_touch.2 (.inl (by rw [hod'])),
            (hb.2.2 o ho').le, fun hne => absurd hod' hne⟩
        · exact .inr ⟨u, mem_touch.2 (.inr ⟨hu, hod'⟩), hle, fun _ => heq hod⟩
  · cases r with
    | nil => cases he
    | cons x r =>
      obtain ⟨h1, h2⟩ := h.current x rfl
      have htail : (touch d w (x :: r)).tail = x :: r.filter fun e => decide (e.1 ≠ d) := by
        simp [touch, ← h1, hd]
      rw [htail, List.take_succ_cons] at he
      rcases List.mem_cons.1 he with rfl | he
      · rw [← h1, ← h2]
        exact self_mem_remember hs.ne_nil hv
      · have her := h.ordered.tail.mem_take_of_filter he
        have hne : e.1 ≠ ri.d := fun hed =>
          (List.nodup_cons.1 h.ordered.keys).1
            (List.mem_map.2 ⟨e, List.mem_of_mem_take her, hed.trans h1⟩)
        refine kept_remember hs hv h.ordered.tail (fun e he =>
          h.nonneg e (List.mem_cons_of_mem _ he)) (fun o ho => ?_) her hne (h.kept e her)
        rcases h.old o ho with hlt' | ⟨u, hu, hle, -⟩
        · exact .inl fun e he => hlt' e (List.mem_cons_of_mem _ he)
        · rcases List.mem_cons.1 hu with hux | hu
          · exact .inr (.inl (by rw [h1, ← hux]))
          · exact .inr (.inr ⟨u, hu, hle⟩)

theorem Tracks.addIncomplete (h : Tracks f ri r) (hs : Shaped f ri.ods) (hlt : ∀ e ∈ r, e.2 < w)
    (hb : ri.Below w) (hw : 0 ≤ w) (hmax : w ≤ seqnoMax) :
    Tracks f (ri.addIncomplete w d) (touch d w r) := by
  by_cases hd : ri.d = d
  · exact h.same hlt hb hw hd
  · exact h.other hs hlt hb hw hmax hd

/-- `add_complete` starts anew. -/
theorem tracks_addComplete {pp : PrePrepareMsg} (hv : 0 ≤ pp.view) :
    Tracks f (ri.addComplete pp) [(pp.digest, pp.view)] := by
  refine ⟨ordered_singleton _ _, fun e he => ?_, fun e he => ?_, fun o ho => ?_, nofun⟩
  · rw [List.mem_singleton.1 he]
    exact hv
  · cases he
    exact ⟨rfl, rfl⟩
  · obtain ⟨p, -, rfl⟩ := List.mem_map.1 ho
    refine .inl fun e he => ?_
    rw [List.mem_singleton.1 he]
    dsimp only
    omega

/-- The entry finds the last `f + 2` digests. -/
theorem Tracks.finds (h : Tracks f ri r) {e : Digest × Int} (he : e ∈ r.take (f + 2)) :
    ri.d = e.1 ∨ ∃ o ∈ ri.ods, o.d = e.1 := by
  cases r with
  | nil => cases he
  | cons x r =>
    rw [List.take_succ_cons] at he
    rcases List.mem_cons.1 he with rfl | he
    · exact .inl (h.current e rfl).1
    · exact .inr ⟨_, h.kept e he, rfl⟩

end OReqInfo

/-! ## The view information -/

namespace ViewInfo

open Prog

variable (cfg : Cfg) (id : Nat)

/-- The log of past requests, the view and the last stable checkpoint are as in `s`, and more was
sent. -/
structure Still (s t : ViewInfo) : Prop where
  oplog : t.oplog = s.oplog
  v : t.v = s.v
  lastStable : t.lastStable = s.lastStable
  outs : s.outs <+: t.outs

section Still

variable {cfg} {id} {s t : ViewInfo}

theorem Still.refl (s : ViewInfo) : Still s s := ⟨rfl, rfl, rfl, List.prefix_refl _⟩

theorem onNv_still {α : Type} (j : Nat) (op : NVEnv → Prog NVInfo α) :
    Holds (Still s) (Still s) (onNv cfg id j op) :=
  fun _ hs =>
    .of_result (fun _ _ => ⟨hs.oplog, hs.v, hs.lastStable, hs.outs.trans (List.prefix_append ..)⟩)
    fun _ => ⟨hs.oplog, hs.v, hs.lastStable, hs.outs.trans (List.prefix_append ..)⟩

theorem modify_still {g : ViewInfo → ViewInfo} (hg : ∀ u, Still u (g u)) :
    Holds (Still s) (Still s) (modify g) :=
  .modify fun u hs => ⟨(hg u).oplog.trans hs.oplog, (hg u).v.trans hs.v,
    (hg u).lastStable.trans hs.lastStable, hs.outs.trans (hg u).outs⟩

theorem out_still (o : Out) : Holds (Still s) (Still s) (out o) :=
  modify_still fun _ => ⟨rfl, rfl, rfl, List.prefix_append ..⟩

theorem moveVC_still (j : Nat) (w : Int) (i : Nat) :
    Holds (Still s) (Still s) (moveVC cfg id j w i) := by
  refine .get_bind fun u => ?_
  split
  · exact .pure
  · exact .when fun _ => .bind (onNv_still j _)
      fun _ => .when fun _ => modify_still fun _ => ⟨rfl, rfl, rfl, List.prefix_refl _⟩

theorem moveAck_still (i j : Nat) : Holds (Still s) (Still s) (moveAck cfg id i j) := by
  refine .get_bind fun u => ?_
  split
  · exact .pure
  · exact .when fun _ => .bind (onNv_still _ _)
      fun _ => .when fun _ => modify_still fun _ => ⟨rfl, rfl, rfl, List.prefix_refl _⟩

theorem startNewView_still : Holds (Still s) (Still s) (startNewView cfg id) :=
  .get_bind fun _ => .assert_bind (fun _ h => h) fun _ => .bind (onNv_still id _) fun _ =>
    .bind (.each (moveVC_still id _) _) fun _ => .each (fun i => .each (moveAck_still i) _) _

theorem ackOther_still (vc : ViewChange) (i : Nat) :
    Holds (Still s) (Still s) (ackOther cfg id vc i) := by
  refine .get_bind fun u => ?_
  split
  · exact .pure
  · exact .when fun _ => .bind (modify_still fun _ => ⟨rfl, rfl, rfl, List.prefix_refl _⟩)
      fun _ => out_still _

/-- `view_change` sets the view, and sends the message that it builds. -/
theorem viewChange_sends {w le : Int} {word : Nat → BitVec 64} {entry : Nat → ReqInfo}
    {digest : Int → Option Digest} {vc : ViewChange}
    (h : (discardOld { s with v := w }).buildViewChange cfg id word entry le digest = some vc) :
    Ensures (viewChange cfg id w le word entry digest) s
      (fun _ t => Still { discardOld { s with v := w } with
            outs := s.outs ++ [.send none (.viewChange vc)] } t)
      (Still { discardOld { s with v := w } with
            outs := s.outs ++ [.send none (.viewChange vc)] }) := by
  refine Reaches.modify_bind trivial (Reaches.get_bind (Reaches.some_bind h ?_))
  refine Reaches.modify_bind trivial (Reaches.modify_bind trivial ?_)
  have hu : Still { discardOld { s with v := w } with
    outs := s.outs ++ [.send none (.viewChange vc)] }
      { discardOld { s with v := w } with
        outs := s.outs ++ [.send none (.viewChange vc)]
        lastVcs := Function.update (discardOld { s with v := w }).lastVcs id (some vc)
        lastViews := Function.update (discardOld { s with v := w }).lastViews id w } := ⟨rfl,
          rfl, rfl, List.prefix_refl _⟩
  exact Reaches.ite (fun _ => startNewView_still _ hu)
    fun _ => Holds.each (ackOther_still vc) _ _ hu

/-- `view_change` only sets the view. -/
theorem viewChange_still {w le : Int} {word : Nat → BitVec 64} {entry : Nat → ReqInfo}
    {digest : Int → Option Digest} (h : viewChange cfg id w le word entry digest s = (some (), t)) :
    t.oplog = s.oplog ∧ t.v = w ∧ t.lastStable = s.lastStable := by
  cases hvc : (discardOld { s with v := w }).buildViewChange cfg id word entry le digest with
  | none =>
    rw [viewChange, modify_bind_apply, get_bind_apply, hvc] at h
    cases h
  | some vc =>
    have ht := (viewChange_sends hvc).result.1 ()
    rw [h] at ht
    exact ⟨(ht rfl).oplog, (ht rfl).v, (ht rfl).lastStable⟩

theorem markStable_still {m : Int} (h : markStable cfg id m s = (some (), t)) :
    t.oplog = s.oplog.truncate cfg.P.maxOut OReqInfo.clear (m + 1) ∧
      t.v = s.v ∧ t.lastStable = m := by
  have hrest (u : ViewInfo) : Holds (Still u) (Still u) (do
      let s ← get
      onNv cfg id (cfg.primary s.v) fun V => NVInfo.markStable V m) := .get_bind
        fun _ => onNv_still _ _
  have ht := ((hrest _) _ (Still.refl { s with
      lastStable := m, oplog := s.oplog.truncate cfg.P.maxOut OReqInfo.clear (m + 1) })).result.1
    ()
  rw [markStable, modify_bind_apply] at h
  rw [h] at ht
  exact ⟨(ht rfl).oplog, (ht rfl).v, (ht rfl).lastStable⟩

end Still

section Recording

variable {cfg} {s t : ViewInfo}

theorem assert_eq_some {b : Bool} {u : ViewInfo} {x : Unit} (h : assert b s = (some x, u)) :
    b = true ∧ u = s := by
  cases b with
  | true => exact ⟨rfl, (congrArg Prod.snd h).symm⟩
  | false => cases h

/-- `add_complete` of a pre-prepare of the current view that is newer than the entry. -/
theorem addComplete_spec {pp : PrePrepareMsg} (h : addComplete cfg pp s = (some (), t)) :
    pp.view = s.v ∧ s.oplog.withinRange cfg.P.maxOut pp.seqno = true ∧
      (s.oplog.entry cfg.P.maxOut pp.seqno).v < pp.view ∧
      t = { s with oplog := s.oplog.set cfg.P.maxOut pp.seqno ((s.oplog.entry
            cfg.P.maxOut pp.seqno).addComplete pp) } := by
  rw [addComplete, get_bind_apply] at h
  obtain ⟨_, s1, h1, h⟩ := bind_eq_some.1 h
  obtain ⟨ri, s2, h2, h⟩ := bind_eq_some.1 h
  obtain ⟨_, s3, h3, ht⟩ := bind_eq_some.1 h
  obtain ⟨hview, rfl⟩ := assert_eq_some h1
  obtain rfl : s2 = s1 := (congrArg Prod.snd h2).symm
  obtain ⟨hlt, rfl⟩ := assert_eq_some h3
  obtain ⟨hn, rfl⟩ := Log.fetch_eq_some.1 (congrArg Prod.fst h2)
  exact ⟨beq_iff_eq.1 hview, hn, (of_decide_eq_true hlt).2, (congrArg Prod.snd ht).symm⟩

theorem addIncomplete_spec {n : Int} {d : Digest} (h : addIncomplete cfg n d s = (some (), t)) :
    s.oplog.withinRange cfg.P.maxOut n = true ∧
      t = { s with oplog := s.oplog.set cfg.P.maxOut n ((s.oplog.entry
            cfg.P.maxOut n).addIncomplete s.v d) } := by
  rw [addIncomplete, get_bind_apply] at h
  obtain ⟨ri, s1, h1, h⟩ := bind_eq_some.1 h
  obtain rfl : s1 = s := (congrArg Prod.snd h1).symm
  obtain ⟨hn, rfl⟩ := Log.fetch_eq_some.1 (congrArg Prod.fst h1)
  exact ⟨hn, (congrArg Prod.snd h).symm⟩

end Recording

end ViewInfo

/-! ## Runs -/

/-- A pre-prepare or prepare that the replica sent in view `v`; `complete` if its certificate
was. -/
structure PastRec where
  n : Int
  d : Digest
  v : Int
  complete : Bool
deriving DecidableEq, Repr

/-- A `View_info` and what was recorded in it. -/
structure Traced where
  s : ViewInfo
  hist : List PastRec

inductive PastOp
  | complete (pp : PrePrepareMsg)
  | incomplete (n : Int) (d : Digest)
  | viewChange (v lastExecuted : Int) (word : Nat → BitVec 64) (entry : Nat →
    ReqInfo) (digest : Int → Option Digest)
  | markStable (ls : Int)

/-- The digests of a sequence number since its last `add_complete`, with the view of their last
record. -/
def recent (n : Int) : List PastRec → List (Digest × Int)
  | [] => []
  | r :: rs =>
    if r.n = n then
      if r.complete then [(r.d, r.v)] else touch r.d r.v (recent n rs) else recent n rs

namespace Traced

variable (cfg : Cfg) (id : Nat)

def start : Traced := ⟨ViewInfo.new cfg, []⟩

def PastOp.prog : PastOp → Prog ViewInfo Unit
  | .complete pp => ViewInfo.addComplete cfg pp
  | .incomplete n d => ViewInfo.addIncomplete cfg n d
  | .viewChange v le word entry digest => ViewInfo.viewChange cfg id v le word entry digest
  | .markStable ls => ViewInfo.markStable cfg id ls

def PastOp.recs (v : Int) : PastOp → List PastRec
  | .complete pp => [⟨pp.seqno, pp.digest, v, true⟩]
  | .incomplete n d => [⟨n, d, v, false⟩]
  | .viewChange _ _ _ _ _ => []
  | .markStable _ => []

def step (t : Traced) (op : PastOp) : Option Traced :=
  match PastOp.prog cfg id op t.s with
  | (some _, s) => some ⟨s, PastOp.recs t.s.v op ++ t.hist⟩
  | (none, _) => none

/-- The slot of `n` has no record of the current view. -/
def Fresh (t : Traced) (n : Int) : Prop :=
  ∀ r ∈ t.hist, Log.slot cfg.P.maxOut r.n = Log.slot cfg.P.maxOut n → r.v < t.s.v

/-- `send_view_change` records each entry of the log once, and then moves on to the next view. -/
def Called (t : Traced) : PastOp → Prop
  | .complete pp => t.Fresh cfg pp.seqno
  | .incomplete n _ => t.Fresh cfg n
  | .viewChange v _ _ _ _ => t.s.v < v ∧ v ≤ seqnoMax
  | .markStable _ => True

instance Fresh.decide (t : Traced) (n : Int) : Decidable (t.Fresh cfg n) :=
  inferInstanceAs (Decidable (∀ r ∈ t.hist,
    Log.slot cfg.P.maxOut r.n = Log.slot cfg.P.maxOut n → r.v < t.s.v))

instance Called.decide (t : Traced) : ∀ op, Decidable (Called cfg t op)
  | .complete pp => inferInstanceAs (Decidable (t.Fresh cfg pp.seqno))
  | .incomplete n _ => inferInstanceAs (Decidable (t.Fresh cfg n))
  | .viewChange v _ _ _ _ => inferInstanceAs (Decidable (t.s.v < v ∧ v ≤ seqnoMax))
  | .markStable _ => .isTrue trivial

structure Inv (t : Traced) : Prop where
  view : 0 ≤ t.s.v ∧ t.s.v ≤ seqnoMax
  past : ∀ r ∈ t.hist, 0 ≤ r.v ∧ r.v ≤ t.s.v ∧ r.n < t.s.oplog.head + cfg.P.maxOut
  shaped : ∀ k, OReqInfo.Shaped cfg.f (t.s.oplog.elems k).ods
  below : ∀ k w, 0 ≤ w → (∀ r ∈ t.hist, Log.slot cfg.P.maxOut r.n = k → r.v < w) →
    (t.s.oplog.elems k).Below w
  sound : ∀ k d, ((t.s.oplog.elems k).d = d ∨ ∃ o ∈ (t.s.oplog.elems k).ods, o.d = d) →
    d = 0 ∨ ∃ r ∈ t.hist, Log.slot cfg.P.maxOut r.n = k ∧ r.d = d
  tracks : ∀ n, t.s.oplog.withinRange cfg.P.maxOut n = true →
    (t.s.oplog.entry cfg.P.maxOut n).Tracks cfg.f (recent n t.hist)

variable {cfg} {id} {t u : Traced}

theorem start_inv : Inv cfg (start cfg) where
  view := ⟨le_rfl, show (0 : Int) ≤ seqnoMax by decide⟩
  past := nofun
  shaped k := by
    refine ⟨List.length_replicate, List.pairwise_replicate.2 (.inr fun _ => ?_)⟩
    decide
  below k w hw _ := by
    have h : (-1 : Int) < w := by omega
    exact ⟨h, h, fun o ho => by rw [List.eq_of_mem_replicate ho]; exact h⟩
  sound k d h := by
    rcases h with rfl | ⟨o, ho, rfl⟩
    · exact .inl rfl
    · rw [List.eq_of_mem_replicate ho]
      exact .inl rfl
  tracks n _ := OReqInfo.tracks_nil _

theorem mem_recent {n : Int} {e : Digest × Int} :
    ∀ {rs : List PastRec}, e ∈ recent n rs → ∃ r ∈ rs, r.n = n ∧ r.v = e.2
  | [], h => by cases h
  | r :: rs, h => by
    rw [recent] at h
    split at h
    · rename_i hn
      split at h
      · rw [List.mem_singleton.1 h]
        exact ⟨r, List.mem_cons_self, hn, rfl⟩
      · rcases mem_touch.1 h with rfl | ⟨h, -⟩
        · exact ⟨r, List.mem_cons_self, hn, rfl⟩
        · obtain ⟨x, hx, h⟩ := mem_recent h
          exact ⟨x, List.mem_cons_of_mem _ hx, h⟩
    · obtain ⟨x, hx, h⟩ := mem_recent h
      exact ⟨x, List.mem_cons_of_mem _ hx, h⟩

/-- A record of `n`, after which the entry is `ri`. -/
theorem Inv.record (hi : Inv cfg t) {n : Int} (hn : t.s.oplog.withinRange cfg.P.maxOut n = true)
    {r : PastRec} (hrn : r.n = n) (hrv : r.v = t.s.v) {ri : OReqInfo}
    (hshaped : OReqInfo.Shaped cfg.f ri.ods)
    (hbelow : ∀ w, t.s.v < w → (t.s.oplog.entry cfg.P.maxOut n).Below w → ri.Below w)
    (hsound : ∀ d, (ri.d = d ∨ ∃ o ∈ ri.ods, o.d = d) →
      d = r.d ∨ (t.s.oplog.entry cfg.P.maxOut n).d = d ∨
        ∃ o ∈ (t.s.oplog.entry cfg.P.maxOut n).ods, o.d = d)
    (htracks : ri.Tracks cfg.f (recent n (r :: t.hist))) :
    Inv cfg ⟨{ t.s with oplog := t.s.oplog.set cfg.P.maxOut n ri }, r :: t.hist⟩ := by
  have hself : ∀ k, k = Log.slot cfg.P.maxOut n → (t.s.oplog.set cfg.P.maxOut n ri).elems k = ri :=
    fun k hk => by simp [Log.set, hk]
  have hother : ∀ k, k ≠ Log.slot cfg.P.maxOut n →
    (t.s.oplog.set cfg.P.maxOut n ri).elems k = t.s.oplog.elems k := fun k hk => by
    simp [Log.set, hk]
  refine ⟨hi.view, fun x hx => ?_, fun k => ?_,
    fun k w hw hlt => ?_, fun k d hd => ?_, fun m hm => ?_⟩
  · rcases List.mem_cons.1 hx with rfl | hx
    · have := hi.view
      simp only [Log.withinRange, Bool.and_eq_true, decide_eq_true_eq] at hn
      exact ⟨by omega, by rw [hrv], by rw [hrn]; exact hn.2⟩
    · exact hi.past x hx
  · by_cases hk : k = Log.slot cfg.P.maxOut n
    · rw [hself k hk]
      exact hshaped
    · rw [hother k hk]
      exact hi.shaped k
  · by_cases hk : k = Log.slot cfg.P.maxOut n
    · rw [hself k hk]
      refine hbelow w ?_ (hi.below _ w hw fun x hx hs =>
        hlt x (List.mem_cons_of_mem _ hx) (hs.trans hk.symm))
      have := hlt r List.mem_cons_self (by rw [hrn, hk])
      omega
    · rw [hother k hk]
      exact hi.below k w hw fun x hx => hlt x (List.mem_cons_of_mem _ hx)
  · have hold : ((t.s.oplog.elems k).d = d ∨ ∃ o ∈ (t.s.oplog.elems k).ods, o.d = d) →
        d = 0 ∨ ∃ x ∈ r :: t.hist, Log.slot cfg.P.maxOut x.n = k ∧ x.d = d := by
      intro h
      rcases hi.sound k d h with h0 | ⟨x, hx, h⟩
      · exact .inl h0
      · exact .inr ⟨x, List.mem_cons_of_mem _ hx, h⟩
    by_cases hk : k = Log.slot cfg.P.maxOut n
    · rw [hself k hk] at hd
      rcases hsound d hd with rfl | hd
      · exact .inr ⟨r, List.mem_cons_self, by rw [hrn, hk], rfl⟩
      · exact hold (hk ▸ hd)
    · rw [hother k hk] at hd
      exact hold hd
  · by_cases hmn : m = n
    · subst hmn
      show OReqInfo.Tracks _ ((t.s.oplog.set cfg.P.maxOut m ri).entry cfg.P.maxOut m) _
      rw [Log.entry_set_self]
      exact htracks
    · show OReqInfo.Tracks _ ((t.s.oplog.set cfg.P.maxOut n ri).entry cfg.P.maxOut m) _
      rw [Log.entry_set_of_ne ri hn hm hmn, recent, if_neg (by rw [hrn]; exact fun h => hmn h.symm)]
      exact hi.tracks m hm

theorem addComplete_inv (hi : Inv cfg t) {pp : PrePrepareMsg} {s : ViewInfo}
    (h : ViewInfo.addComplete cfg pp t.s = (some (), s)) :
    Inv cfg ⟨s, ⟨pp.seqno, pp.digest, t.s.v, true⟩ :: t.hist⟩ := by
  obtain ⟨hview, hn, -, rfl⟩ := ViewInfo.addComplete_spec h
  have hnn := hi.view.1
  refine hi.record hn rfl rfl ?_ (fun w hw hb => ?_) (fun d hd => ?_) ?_
  · exact (hi.shaped _).clear
  · refine ⟨by rw [← hview] at hw; exact hw, by rw [← hview] at hw; exact hw, fun o ho => ?_⟩
    obtain ⟨p, -, rfl⟩ := List.mem_map.1 ho
    show (-1 : Int) < w
    omega
  · rcases hd with rfl | ⟨o, ho, rfl⟩
    · exact .inl rfl
    · obtain ⟨p, hp, rfl⟩ := List.mem_map.1 ho
      exact .inr (.inr ⟨p, hp, rfl⟩)
  · rw [recent, if_pos rfl, if_pos rfl, ← hview]
    exact OReqInfo.tracks_addComplete (by omega)

theorem addIncomplete_inv (hi : Inv cfg t) {n : Int} {d : Digest} {s : ViewInfo}
    (hf : t.Fresh cfg n) (h : ViewInfo.addIncomplete cfg n d t.s = (some (), s)) :
    Inv cfg ⟨s, ⟨n, d, t.s.v, false⟩ :: t.hist⟩ := by
  obtain ⟨hn, rfl⟩ := ViewInfo.addIncomplete_spec h
  set ri := t.s.oplog.entry cfg.P.maxOut n with hri
  have hshaped : OReqInfo.Shaped cfg.f ri.ods := hri ▸ hi.shaped _
  have hbelow : ri.Below t.s.v := hri ▸ hi.below _ _ hi.view.1 hf
  have hv : ∀ o ∈ ri.ods, o.v < seqnoMax := fun o ho => (hbelow.2.2 o ho).trans_le hi.view.2
  -- what the entry has after the call, whatever the branch
  have hentry : (ri.addIncomplete t.s.v d).d = d ∧ ((ri.addIncomplete t.s.v d).ods = ri.ods ∨
      (ri.addIncomplete t.s.v d).ods = OReqInfo.remember ri.ods ri.d ri.lastView) := by
    by_cases hd : ri.d = d
    · unfold OReqInfo.addIncomplete
      rw [if_pos hd]
      split
      · exact ⟨hd, .inl rfl⟩
      · exact ⟨hd, .inl rfl⟩
    · unfold OReqInfo.addIncomplete
      rw [if_neg hd]
      exact ⟨rfl, .inr rfl⟩
  have hviews : ∀ w, t.s.v < w → ri.Below w → (ri.addIncomplete t.s.v d).v < w ∧
    (ri.addIncomplete t.s.v d).lv < w := by
    intro w hw hb
    unfold OReqInfo.addIncomplete
    split
    · split
      · exact ⟨hb.1, hw⟩
      · exact ⟨hw, hb.2.1⟩
    · refine ⟨hw, ?_⟩
      dsimp only
      split
      · exact hb.2.1
      · exact hb.1
  refine hi.record hn rfl rfl ?_ (fun w hw hb => ?_) (fun e he => ?_) ?_
  · rcases hentry.2 with h | h
    · rw [h]
      exact hshaped
    · rw [h]
      exact hshaped.remember hv
  · refine ⟨(hviews w hw hb).1, (hviews w hw hb).2, fun o ho => ?_⟩
    rcases hentry.2 with h | h
    · exact hb.2.2 o (h ▸ ho)
    · rcases OReqInfo.mem_remember hshaped.ne_nil hv (h ▸ ho) with ho | rfl
      · exact hb.2.2 o ho
      · unfold OReqInfo.lastView
        dsimp only
        split
        · exact hb.2.1
        · exact hb.1
  · rcases he with rfl | ⟨o, ho, rfl⟩
    · exact .inl hentry.1
    · rcases hentry.2 with h | h
      · exact .inr (.inr ⟨o, h ▸ ho, rfl⟩)
      · rcases OReqInfo.mem_remember hshaped.ne_nil hv (h ▸ ho) with ho | rfl
        · exact .inr (.inr ⟨o, ho, rfl⟩)
        · exact .inr (.inl rfl)
  · rw [recent, if_pos rfl, if_neg Bool.false_ne_true]
    refine OReqInfo.Tracks.addIncomplete (hri ▸ hi.tracks n hn)
      hshaped (fun e he => ?_) hbelow hi.view.1 hi.view.2
    obtain ⟨x, hx, hxn, hxv⟩ := mem_recent he
    exact hxv ▸ hf x hx (by rw [hxn])

theorem markStable_inv (hi : Inv cfg t) {ls : Int} {s : ViewInfo}
    (h : ViewInfo.markStable cfg id ls t.s = (some (), s)) :
    Inv cfg ⟨s, t.hist⟩ := by
  obtain ⟨ho, hv, -⟩ := ViewInfo.markStable_still h
  have hsize : cfg.P.maxOut < 2 ^ 31 := by
    have := cfg.P.maxOut_lt
    omega
  have hhead := @Log.truncate_head _ cfg.P.maxOut OReqInfo.clear t.s.oplog (ls + 1)
  have helems := @Log.truncate_elems _ cfg.P.maxOut OReqInfo.clear t.s.oplog (ls + 1)
  refine ⟨by rw [hv]; exact hi.view, fun r hr => ?_,
    fun k => ?_, fun k w hw hlt => ?_, fun k d hd => ?_, fun n hn => ?_⟩
  · obtain ⟨h1, h2, h3⟩ := hi.past r hr
    refine ⟨h1, by rw [hv]; exact h2, ?_⟩
    dsimp only
    rw [ho, hhead]
    have := le_max_left t.s.oplog.head (ls + 1)
    omega
  · dsimp only
    rw [ho]
    rcases helems k with h | h
    · rw [h]
      exact hi.shaped k
    · rw [h]
      exact (hi.shaped k).clear
  · dsimp only
    rw [ho]
    rcases helems k with h | h
    · rw [h]
      exact hi.below k w hw hlt
    · rw [h]
      have hneg : (-1 : Int) < w := by omega
      refine ⟨hneg, hneg, fun o hmem => ?_⟩
      obtain ⟨p, -, rfl⟩ := List.mem_map.1 hmem
      exact hneg
  · dsimp only at hd
    rw [ho] at hd
    rcases helems k with h | h
    · rw [h] at hd
      exact hi.sound k d hd
    · rw [h] at hd
      rcases hd with rfl | ⟨o, hmem, rfl⟩
      · exact .inl rfl
      · obtain ⟨p, hp, rfl⟩ := List.mem_map.1 hmem
        exact hi.sound k p.d (.inr ⟨p, hp, rfl⟩)
  · dsimp only at hn ⊢
    rw [ho] at hn ⊢
    simp only [Log.withinRange, Bool.and_eq_true, decide_eq_true_eq, hhead] at hn
    have hmax := le_max_left t.s.oplog.head (ls + 1)
    have hmax' := le_max_right t.s.oplog.head (ls + 1)
    by_cases hold : n < t.s.oplog.head + cfg.P.maxOut
    · rw [Log.entry_truncate cfg.maxOut_dvd hsize (by omega) hold]
      refine hi.tracks n ?_
      simp only [Log.withinRange, Bool.and_eq_true, decide_eq_true_eq]
      omega
    · -- nothing was recorded for a number that enters the window
      have hnil : recent n t.hist = [] := by
        rw [List.eq_nil_iff_forall_not_mem]
        intro e he
        obtain ⟨x, hx, hxn, -⟩ := mem_recent he
        have := (hi.past x hx).2.2
        omega
      rw [hnil]
      exact OReqInfo.tracks_nil _

theorem step_inv (hi : Inv cfg t) {op : PastOp} (hc : Called cfg t op)
    (h : step cfg id t op = some u) : Inv cfg u := by
  rw [step] at h
  split at h
  · rename_i s hs
    cases h
    cases op with
    | complete pp => exact addComplete_inv hi hs
    | incomplete n d => exact addIncomplete_inv hi hc hs
    | viewChange v le word entry digest =>
      obtain ⟨ho, hv, -⟩ := ViewInfo.viewChange_still hs
      obtain ⟨h1, h2⟩ := hc
      have hview := hi.view
      refine ⟨⟨by rw [hv]; omega, by rw [hv]; exact h2⟩, fun r hr => ?_, ?_, ?_, ?_, ?_⟩
      · obtain ⟨h3, h4, h5⟩ := hi.past r hr
        exact ⟨h3, by rw [hv]; omega, by rw [ho]; exact h5⟩
      · rw [ho]
        exact hi.shaped
      · rw [ho]
        exact hi.below
      · rw [ho]
        exact hi.sound
      · rw [ho]
        exact hi.tracks
    | markStable ls => exact markStable_inv hi hs
  · cases h

/-- **What `prepare` answers**, after any run: it finds the last `f + 2` digests of the sequence
number since its last `add_complete`, the current one among them; and a digest that it finds was
recorded for the sequence number, or for a former one of its slot. -/
theorem prepare_remembers {ops : List PastOp}
    (hm : Run.Meets (step cfg id) (Called cfg) (start cfg) ops)
    (hr : Run.run (step cfg id) (start cfg) ops = some t) {n : Int}
    (hn : t.s.oplog.withinRange cfg.P.maxOut n = true) :
    (∀ d, d ≠ 0 → t.s.prepareOf cfg n d = true →
      ∃ r ∈ t.hist, r.d = d ∧ r.v ≤ t.s.v ∧ r.n ≤ n ∧ r.n % cfg.P.maxOut = n % cfg.P.maxOut) ∧
    ∀ e ∈ (recent n t.hist).take (cfg.f + 2), t.s.prepareOf cfg n e.1 = true := by
  have hi : Inv cfg t := Run.invariant (fun _ _ _ hi hc h => step_inv hi hc h) start_inv hm hr
  have hfetch := Log.fetch_eq_some.2 ⟨hn, rfl⟩
  constructor
  · intro d hd h
    rw [ViewInfo.prepareOf, hfetch, Bool.or_eq_true, beq_iff_eq, List.any_eq_true] at h
    obtain ⟨r, hr, hs, hrd⟩ :=
      (hi.sound (Log.slot cfg.P.maxOut n) d
        (h.imp_right (Exists.imp fun o ho => ⟨ho.1, beq_iff_eq.1 ho.2⟩))).resolve_left hd
    have hmod := (Log.slot_eq_iff cfg.P.maxOut_pos).1 hs
    obtain ⟨-, h2, h3⟩ := hi.past r hr
    refine ⟨r, hr, hrd, h2, ?_, hmod⟩
    by_contra hlt
    simp only [Log.withinRange, Bool.and_eq_true, decide_eq_true_eq] at hn
    have := @Log.slot_inj _ r.n n t.s.oplog.head (by omega) (by omega) hs
    omega
  · intro e he
    rw [ViewInfo.prepareOf, hfetch, Bool.or_eq_true, beq_iff_eq, List.any_eq_true]
    exact ((hi.tracks n hn).finds he).imp_right (Exists.imp fun o ho => ⟨ho.1, beq_iff_eq.2 ho.2⟩)

/-- Replica 3 enters view `v`. -/
def enter (v : Int) : PastOp := .viewChange v 0 (fun _ => 0) (fun _ => ⟨0, 0, 0⟩) fun _ => some 1

/-- Replica 3 sends the digests 7, 8, 9, 10 and 8 again for number 1, one in each view. -/
def fiveViews : List PastOp :=
  [.incomplete 1 7, enter 1, .incomplete 1 8, enter 2, .incomplete 1 9,
    enter 3, .incomplete 1 10, enter 4, .incomplete 1 8, enter 5]

/-- Of the last `f + 2` earlier digests, 7 is not found, since 8 still has its place; an
`add_complete` forgets 7; and the null digest is found without a record. -/
theorem earlier_forgotten :
    (∃ t, Run.run (step Replica.fourReplicas 3) (start Replica.fourReplicas) fiveViews = some t ∧
      recent 1 t.hist = [(8, 4), (10, 3), (9, 2), (7, 0)] ∧
        t.s.prepareOf Replica.fourReplicas 1 7 = false) ∧
    (∃ t, Run.run (step Replica.fourReplicas 3) (start Replica.fourReplicas) [.incomplete 1 7,
          enter 1, .complete ⟨1, 1, 8, []⟩, enter 2] = some t ∧
      t.hist.map (·.d) = [8, 7] ∧ t.s.prepareOf Replica.fourReplicas 1 7 = false) ∧
    (start Replica.fourReplicas).s.prepareOf Replica.fourReplicas 1 0 = true := by
  refine ⟨?_, ?_, by decide⟩
  · obtain ⟨t, ht, h⟩ := (Option.any_eq_true _ _).1 (show (Run.run
      (step Replica.fourReplicas 3) (start Replica.fourReplicas) fiveViews).any (fun t =>
      decide (recent 1 t.hist = [(8, 4), (10, 3), (9, 2), (7, 0)] ∧
        t.s.prepareOf Replica.fourReplicas 1 7 = false)) = true by decide +kernel)
    exact ⟨t, ht, of_decide_eq_true h⟩
  · obtain ⟨t, ht, h⟩ := (Option.any_eq_true _ _).1
      (show (Run.run (step Replica.fourReplicas 3) (start Replica.fourReplicas)
      [.incomplete 1 7, enter 1, .complete ⟨1, 1, 8, []⟩, enter 2]).any (fun t =>
        decide (t.hist.map (·.d) = [8, 7] ∧ t.s.prepareOf Replica.fourReplicas 1 7 = false)) =
          true by decide +kernel)
    exact ⟨t, ht, of_decide_eq_true h⟩

theorem prepare_remembers_three : ∃ t,
    Run.run (step Replica.fourReplicas 3) (start Replica.fourReplicas) [.incomplete 1 7,
        enter 1, .incomplete 1 8, enter 2] = some t ∧
      recent 1 t.hist = [(8, 1), (7, 0)] ∧ ∀ e ∈ (recent 1 t.hist).take 3,
        t.s.prepareOf Replica.fourReplicas 1 e.1 = true := by
  have hm : Run.Meets (step Replica.fourReplicas 3) (Called Replica.fourReplicas)
    (start Replica.fourReplicas)
      [.incomplete 1 7, enter 1, .incomplete 1 8, enter 2] := by decide +kernel
  obtain ⟨t, ht, h⟩ := (Option.any_eq_true _ _).1
    (show (Run.run (step Replica.fourReplicas 3) (start Replica.fourReplicas)
    [.incomplete 1 7, enter 1, .incomplete 1 8, enter 2]).any (fun t =>
      decide (recent 1 t.hist = [(8, 1), (7, 0)] ∧
        t.s.oplog.withinRange Replica.fourReplicas.P.maxOut 1 = true)) = true by decide +kernel)
  obtain ⟨hrec, hin⟩ := of_decide_eq_true h
  exact ⟨t, ht, hrec, (prepare_remembers hm ht hin).2⟩

end Traced

end TinyBFT
