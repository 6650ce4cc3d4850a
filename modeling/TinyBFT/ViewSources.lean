import TinyBFT.NewViewPicks
import TinyBFT.ViewCalls

/-!
# Where the parts of a `View_info` come from

`Sourced` of all `NV_info`s and of the view-changes that are kept, over the operations of
`View_info`. The views in which requests were sent lie in the past, so that a proof that is sent
(`send_proofs`, `View_info.cc:119-132`) is for a view that the replica which asked for it has left:
`RE k w` says that replica `k` has reached view `w`.
-/

namespace TinyBFT

namespace OReqInfo

/-- Whatever was sent was sent before view `w`. -/
structure Past (w : Int) (ri : OReqInfo) : Prop where
  v : ri.v < w
  lv : ri.lv < w
  ods : ∀ o ∈ ri.ods, o.v < w
  m : ∀ pp, ri.m = some pp → pp.view < w

variable {w : Int} {ri : OReqInfo}

theorem Past.mono (h : Past w ri) {w' : Int} (hw : w ≤ w') : Past w' ri :=
  ⟨by have := h.v; omega, by have := h.lv; omega,
    fun o ho => by have := h.ods o ho; omega, fun pp hm => by have := h.m pp hm; omega⟩

theorem past_new (f : Nat) (hw : 0 ≤ w) : Past w (new f) := by
  refine ⟨by change (-1 : Int) < w; omega, by change (-1 : Int) < w; omega, fun o ho => ?_, nofun⟩
  rw [List.eq_of_mem_replicate ho]
  change (-1 : Int) < w
  omega

theorem past_clear (ri : OReqInfo) (hw : 0 ≤ w) : Past w ri.clear := by
  refine ⟨by change (-1 : Int) < w; omega, by change (-1 : Int) < w; omega, fun o ho => ?_, nofun⟩
  obtain ⟨o', -, rfl⟩ := List.mem_map.1 ho
  change (-1 : Int) < w
  omega

theorem past_addComplete (ri : OReqInfo) {pp : PrePrepareMsg} (hw : 0 ≤ w) (hv : pp.view < w) :
    Past w (ri.addComplete pp) :=
  ⟨hv, hv, (past_clear ri hw).ods, fun m hm => by cases hm; exact hv⟩

theorem past_remember {ods : List ODigestInfo} {d : Digest} {lv : Int} (h : ∀ o ∈ ods, o.v < w)
    (hlv : lv < w) :
    ∀ o ∈ remember ods d lv, o.v < w := by
  intro o ho
  unfold remember at ho
  split at ho
  · obtain ⟨i, hi⟩ := List.mem_iff_getElem?.1 ho
    rw [List.getElem?_modify] at hi
    obtain ⟨o', ho', heq⟩ := Option.map_eq_some_iff.1 hi
    split at heq
    · subst heq
      exact hlv
    · subst heq
      exact h o' (List.mem_of_getElem? ho')
  · rcases List.mem_or_eq_of_mem_set ho with ho | rfl
    · exact h o ho
    · exact hlv

theorem Past.addIncomplete (h : Past w ri) {v : Int} (hv : v < w) (d : Digest) :
    Past w (ri.addIncomplete v d) := by
  have hlv : (if ri.m.isSome then ri.lv else ri.v) < w := by
    split
    · exact h.lv
    · exact h.v
  unfold OReqInfo.addIncomplete
  split
  · split
    · exact ⟨h.v, hv, h.ods, h.m⟩
    · exact ⟨hv, h.lv, h.ods, h.m⟩
  · exact ⟨hv, hlv, past_remember h.ods hlv, nofun⟩

end OReqInfo

namespace ViewInfo

open Prog (Ensures Reaches Within Composes Holds get modify assert ofOption when each)
open OReqInfo (Past)
open NVInfo (Frozen Matching)

variable (cfg : Cfg) (id : Nat) (VC : ViewChange → Prop) (NV : NewView → Prop)
    (RE : Nat → Int → Prop)

/-- What may be sent on behalf of `vi`, and what it may ask of the replica. -/
def Fair (lastNvs : Nat → NVInfo) : Out → Prop
  | .send dest (.prepare p) => ∃ k, dest = some k ∧ p.extra = true ∧ RE k (p.view + 1)
  | .send dest (.viewChange vc) => dest = none ∧ VC vc
  | .send _ (.ack _) => True
  | .send _ _ => False
  | .call (.processNewView _ _ max _) => ∃ j, (lastNvs j).isComplete = true ∧
      (cfg.primary (lastNvs j).v = id → (lastNvs j).nvSent = true ∧ ∃ nv,
        (lastNvs j).nv = some nv ∧ nv.max = max)
  | .call .sendStatus => True

/-- The views in the log lie before `w`. -/
structure Sourced (w : Int) (s : ViewInfo) : Prop where
  nvs : ∀ j, NVInfo.Sourced cfg id VC NV (s.lastNvs j)
  idle : ∀ j, (s.lastNvs j).calls = []
  vcs : ∀ i vc, s.lastVcs i = some vc → vc.id = i ∧ vc.v ≠ 0 ∧ VC vc
  past : ∀ k, Past w (s.oplog.elems k)
  outs : ∀ o ∈ s.outs, Fair cfg id VC RE s.lastNvs o
  nonneg : 0 ≤ w

variable {cfg id VC NV RE} {w : Int} {s t u : ViewInfo} {α : Type} {j : Nat}

/-- Complete new views keep their messages. -/
def FrozenAll (s t : ViewInfo) : Prop := ∀ j, Frozen (s.lastNvs j) (t.lastNvs j)

theorem FrozenAll.refl : FrozenAll s s := fun _ => .refl

theorem FrozenAll.trans (h : FrozenAll s t) (h' : FrozenAll t u) : FrozenAll s u := fun j hc => by
  obtain ⟨h1, h2, h3, h4⟩ := h j hc
  obtain ⟨h1', h2', h3', h4'⟩ := h' j h1
  exact ⟨h1', h2'.trans h2, h3'.trans h3, h4'.trans h4⟩

theorem FrozenAll.of_eq (h : t.lastNvs = s.lastNvs) : FrozenAll s t := fun j => by
  rw [h]
  exact .refl

theorem Fair.frozen {o : Out} (h : Fair cfg id VC RE s.lastNvs o) (hf : FrozenAll s t) :
    Fair cfg id VC RE t.lastNvs o := by
  cases o with
  | send dest m => cases m <;> exact h
  | call c =>
    cases c with
    | sendStatus => trivial
    | processNewView min d max ms =>
      obtain ⟨j, hc, hp⟩ := h
      obtain ⟨h1, h2, h3, h4⟩ := hf j hc
      exact ⟨j, h1, by rw [h2, h3, h4]; exact hp⟩

/-- What an operation keeps that leaves complete new views alone. -/
abbrev Source {α : Type} (cfg : Cfg) (id : Nat) (VC : ViewChange → Prop) (NV : NewView → Prop)
    (RE : Nat → Int → Prop) (w : Int) (x : Prog ViewInfo α) (s : ViewInfo) : Prop :=
  Within (fun s t => Sourced cfg id VC NV RE w t ∧ FrozenAll s t)
    (fun s t => Sourced cfg id VC NV RE w t ∧ FrozenAll s t) x s

theorem source_composes : Composes (fun s t => Sourced cfg id VC NV RE w t ∧ FrozenAll s t)
    fun s t => Sourced cfg id VC NV RE w t ∧ FrozenAll s t :=
  ⟨fun h h' => ⟨h'.1, h.2.trans h'.2⟩, fun h h' => ⟨h'.1, h.2.trans h'.2⟩⟩

theorem Source.own {x : Prog ViewInfo α} (h : Source cfg id VC NV RE w x s) :
    Within (fun s t => Sourced cfg id VC NV RE w t ∧ Frozen (s.lastNvs id) (t.lastNvs id))
      (fun s t => Sourced cfg id VC NV RE w t ∧ Frozen (s.lastNvs id) (t.lastNvs id)) x s :=
  Ensures.imp h (fun _ _ ht => ⟨ht.1, ht.2 id⟩) fun _ ht => ⟨ht.1, ht.2 id⟩

/-- Whatever else occurs, or is heard. -/
theorem Sourced.mono {VC' : ViewChange → Prop} {NV' : NewView → Prop} {RE' : Nat → Int → Prop}
    (h : Sourced cfg id VC NV RE w s) (hVC : ∀ vc, VC vc → VC' vc) (hNV : ∀ nv, NV nv → NV' nv)
    (hRE : ∀ k x, RE k x → RE' k x) : Sourced cfg id VC' NV' RE' w s where
  nvs j := (h.nvs j).mono hVC hNV
  idle := h.idle
  vcs i vc hi := by
    obtain ⟨h1, h2, h3⟩ := h.vcs i vc hi
    exact ⟨h1, h2, hVC vc h3⟩
  past := h.past
  outs o ho := by
    have := h.outs o ho
    cases o with
    | send dest m =>
      cases m with
      | prepare p =>
        obtain ⟨k, h1, h2, h3⟩ := this
        exact ⟨k, h1, h2, hRE _ _ h3⟩
      | viewChange vc => exact ⟨this.1, hVC vc this.2⟩
      | _ => exact this
    | call c => cases c <;> exact this
  nonneg := h.nonneg

theorem Sourced.stay (h : Sourced cfg id VC NV RE w s) :
    Sourced cfg id VC NV RE w s ∧ FrozenAll s s := ⟨h, .refl⟩

theorem Sourced.of_eq (h : Sourced cfg id VC NV RE w s) (hnv : t.lastNvs = s.lastNvs)
    (hvcs : t.lastVcs = s.lastVcs) (hlog : t.oplog.elems = s.oplog.elems)
    (houts : t.outs = s.outs) : Sourced cfg id VC NV RE w t := by
  refine ⟨?_, ?_, ?_, ?_, ?_, h.nonneg⟩ <;> simp only [hnv, hvcs, hlog, houts]
  exacts [h.nvs, h.idle, h.vcs, h.past, h.outs]

theorem source_modify {g : ViewInfo → ViewInfo} (h : Sourced cfg id VC NV RE w (g s))
    (hnv : (g s).lastNvs = s.lastNvs) :
    Source cfg id VC NV RE w (modify g) s := .modify ⟨h, .of_eq hnv⟩

theorem source_modify_bind {β : Type} {g : ViewInfo → ViewInfo} {f : Unit → Prog ViewInfo β}
    (h : Sourced cfg id VC NV RE w (g s)) (hnv : (g s).lastNvs = s.lastNvs)
    (hf : Source cfg id VC NV RE w (f ()) (g s)) : Source cfg id VC NV RE w (modify g >>= f) s :=
  .modify_bind source_composes ⟨h, .of_eq hnv⟩ hf

theorem Sourced.send (h : Sourced cfg id VC NV RE w s) {outs : List Out}
    (ho : ∀ o ∈ outs, Fair cfg id VC RE s.lastNvs o) :
    Sourced cfg id VC NV RE w { s with outs := s.outs ++ outs } :=
  ⟨h.nvs, h.idle, h.vcs, h.past, fun o hm =>
    (List.mem_append.1 hm).elim (h.outs o) (ho o), h.nonneg⟩

theorem out_source (h : Sourced cfg id VC NV RE w s) {o : Out}
    (ho : Fair cfg id VC RE s.lastNvs o) : Source cfg id VC NV RE w (out o) s :=
  source_modify (h.send fun o' ho' => by rw [List.mem_singleton.1 ho']; exact ho) rfl

theorem outAck_source (h : Sourced cfg id VC NV RE w s) (dest : Option Nat) (m : ViewChangeAck) :
    Source cfg id VC NV RE w (out (.send dest (.ack m))) s := out_source h trivial

/-! ## The `NV_info`s -/

theorem matching_nvEnv (s : ViewInfo) : Matching (s.nvEnv cfg id) := by
  intro n d m hm
  simp only [nvEnv, prePrepareOf] at hm
  split at hm
  · cases hm
  · split at hm
    · cases hm
    · split at hm
      · split at hm
        · cases hm
          rename_i hd _ hc
          exact hc.1.trans hd
        · cases hm
      · cases hm

/-- An `NV_info` changes; where calls are pending, a complete one does not. -/
theorem Sourced.put (h : Sourced cfg id VC NV RE w s) {t : NVInfo}
    (ht : NVInfo.Sourced cfg id VC NV t) (hf : Frozen (s.lastNvs j) t ∨ ∀ c, .call c ∉ s.outs) :
    Sourced cfg id VC NV RE w (put s j t) := by
  have hself : (ViewInfo.put s j t).lastNvs j = { t with calls := [] } := Function.update_self ..
  have hne : ∀ k, k ≠ j → (ViewInfo.put s j t).lastNvs k = s.lastNvs k :=
    fun k hk => put_lastNvs_of_ne t hk
  have hfair : ∀ o ∈ s.outs, Fair cfg id VC RE (ViewInfo.put s j t).lastNvs o := by
    intro o ho
    rcases hf with hf | hno
    · refine (h.outs o ho).frozen (t := ViewInfo.put s j t) fun k => ?_
      by_cases hk : k = j
      · subst hk
        rw [hself]
        exact hf
      · rw [hne k hk]
        exact .refl
    · have := h.outs o ho
      cases o with
      | send dest m => cases m <;> exact this
      | call c => exact absurd ho (hno c)
  refine ⟨fun k => ?_, fun k => ?_, h.vcs, h.past, fun o ho => ?_, h.nonneg⟩
  · by_cases hk : k = j
    · subst hk
      rw [hself]
      exact { ht with sent := ht.sent, calls := fun _ _ _ _ hm => by cases hm }
    · rw [hne k hk]
      exact h.nvs k
  · by_cases hk : k = j
    · subst hk
      rw [hself]
    · rw [hne k hk]
      exact h.idle k
  · rcases List.mem_append.1 (show o ∈ s.outs ++ t.calls.map .call from ho) with ho | ho
    · exact hfair o ho
    · obtain ⟨c, hc, rfl⟩ := List.mem_map.1 ho
      cases c with
      | sendStatus => trivial
      | processNewView min d max ms =>
        obtain ⟨h1, h2⟩ := ht.calls min d max ms hc
        exact ⟨j, by rw [hself]; exact h1, by rw [hself]; exact h2⟩

/-- An operation of an `NV_info` that keeps the message of a complete one. -/
theorem onNv_sourced {op : NVEnv → Prog NVInfo α} {Q : α → NVInfo → Prop}
    (h : Sourced cfg id VC NV RE w s) (hop : Ensures (op (s.nvEnv cfg id)) (s.lastNvs j)
      (fun a t => (NVInfo.Sourced cfg id VC NV t ∧ Frozen (s.lastNvs j) t) ∧ Q a t)
      (fun t => NVInfo.Sourced cfg id VC NV t ∧ Frozen (s.lastNvs j) t)) :
    Ensures (onNv cfg id j op) s (fun a t =>
        (Sourced cfg id VC NV RE w t ∧ FrozenAll s t) ∧ ∃ u, Q a u)
      (fun t => Sourced cfg id VC NV RE w t ∧ FrozenAll s t) := by
  have hput : ∀ t, NVInfo.Sourced cfg id VC NV t ∧ Frozen (s.lastNvs j) t →
      Sourced cfg id VC NV RE w (ViewInfo.put s j t) ∧ FrozenAll s (ViewInfo.put s j t) := by
    rintro t ⟨ht, hf⟩
    refine ⟨h.put ht (.inl hf), fun k => ?_⟩
    by_cases hk : k = j
    · subst hk
      rw [show (ViewInfo.put s k t).lastNvs k = { t with calls := [] } from Function.update_self ..]
      exact hf
    · rw [put_lastNvs_of_ne t hk]
      exact .refl
  obtain ⟨h1, h2⟩ := hop.result
  have happ : onNv cfg id j op s = _ := onNv_apply op
  refine Ensures.of_result (fun a ha => ?_) fun ha => ?_
  · rw [happ] at ha ⊢
    exact ⟨hput _ (h1 a ha).1, _, (h1 a ha).2⟩
  · rw [happ] at ha ⊢
    exact hput _ (h2 ha)

theorem onNv_source {op : NVEnv → Prog NVInfo α} (h : Sourced cfg id VC NV RE w s)
    (hop : NVInfo.Roots (s.nvEnv cfg id) VC NV (op (s.nvEnv cfg id)) (s.lastNvs j)) :
    Source cfg id VC NV RE w (onNv cfg id j op) s :=
  (onNv_sourced (Q := fun _ _ => True) h (Ensures.imp hop (fun _ _ ht => ⟨ht, trivial⟩)
    fun _ ht => ht)).imp (fun _ _ ht => ht.1) fun _ ht => ht

/-! ## Operations -/

theorem addComplete_source (h : Sourced cfg id VC NV RE w s) (hw : s.v < w) (pp : PrePrepareMsg) :
    Source cfg id VC NV RE w (addComplete cfg pp) s := by
  refine .get_bind (.assert_bind h.stay fun hv => .ofOption_bind h.stay
    fun ri _ => .assert_bind h.stay fun _ => source_modify ?_ rfl)
  have hv : pp.view = s.v := by simpa using hv
  refine ⟨h.nvs, h.idle, h.vcs, fun k => ?_, h.outs, h.nonneg⟩
  change Past w (Function.update s.oplog.elems (Log.slot cfg.P.maxOut pp.seqno)
    (ri.addComplete pp) k)
  by_cases hk : k = Log.slot cfg.P.maxOut pp.seqno
  · subst hk
    rw [Function.update_self]
    exact OReqInfo.past_addComplete ri h.nonneg (by omega)
  · rw [Function.update_of_ne hk]
    exact h.past k

theorem addIncomplete_source (h : Sourced cfg id VC NV RE w s) (hw : s.v < w)
    (n : Int) (d : Digest) :
    Source cfg id VC NV RE w (addIncomplete cfg n d) s := by
  refine .get_bind (.ofOption_bind h.stay fun ri hri => source_modify ?_ rfl)
  obtain ⟨-, hri⟩ := Log.fetch_eq_some.1 hri
  refine ⟨h.nvs, h.idle, h.vcs, fun k => ?_, h.outs, h.nonneg⟩
  change Past w (Function.update s.oplog.elems (Log.slot cfg.P.maxOut n) (ri.addIncomplete s.v d) k)
  by_cases hk : k = Log.slot cfg.P.maxOut n
  · subst hk
    rw [Function.update_self, ← hri]
    exact (h.past _).addIncomplete hw d
  · rw [Function.update_of_ne hk]
    exact h.past k

/-- The pre-prepares in the log are of earlier views. -/
theorem Sourced.since (h : Sourced cfg id VC NV RE w s) {n v : Int} {m : PrePrepareMsg}
    (hm : s.prePrepareSince cfg n v = some (some m)) :
    m.view < w := by
  unfold prePrepareSince at hm
  split at hm
  · cases hm
  · rename_i ri hri
    obtain ⟨-, hri⟩ := Log.fetch_eq_some.1 hri
    split at hm
    · cases hm
    · rename_i m' hm'
      split at hm
      · split at hm <;> cases hm
        exact (h.past (Log.slot cfg.P.maxOut n)).m m
          (by rw [show s.oplog.elems (Log.slot cfg.P.maxOut n) = ri from hri]; exact hm')
      · cases hm

/-- A replica that has reached view `w` gets proofs for views that it has left. -/
theorem sendProofs_source (hRE : ∀ k x y, y ≤ x → RE k x → RE k y) (h : Sourced cfg id VC NV RE w s)
    (n v : Int) {dest : Nat} (hd : RE dest w) :
    Source cfg id VC NV RE w (sendProofs cfg id n v dest) s := by
  refine .modify ?_
  cases hf : s.oplog.fetch cfg.P.maxOut n with
  | none => exact h.stay
  | some ri =>
    obtain ⟨-, hri⟩ := Log.fetch_eq_some.1 hf
    refine ⟨h.send fun o ho => ?_, .of_eq rfl⟩
    obtain ⟨od, hod, rfl⟩ := List.mem_map.1 ho
    have hlt := (h.past (Log.slot cfg.P.maxOut n)).ods od (by
      rw [show s.oplog.elems (Log.slot cfg.P.maxOut n) = ri from hri]
      exact (List.mem_filter.1 hod).1)
    refine ⟨dest, rfl, rfl, hRE dest w _ ?_ hd⟩
    change od.v + 1 ≤ w
    omega

/-- A view-change leaves the array in which it was kept. -/
theorem Sourced.dropVC (h : Sourced cfg id VC NV RE w s) (i : Nat) :
    Sourced cfg id VC NV RE w { s with lastVcs := Function.update s.lastVcs i none } := by
  refine ⟨h.nvs, h.idle, fun k vc hk => ?_, h.past, h.outs, h.nonneg⟩
  have hk : Function.update s.lastVcs i none k = some vc := hk
  by_cases he : k = i
  · subst he
    rw [Function.update_self] at hk
    cases hk
  · rw [Function.update_of_ne he] at hk
    exact h.vcs k vc hk

theorem Sourced.keepVC (h : Sourced cfg id VC NV RE w s) {vc : ViewChange} (hv : vc.v ≠ 0)
    (hvc : VC vc) (lv : Int) :
    Sourced cfg id VC NV RE w { s with lastVcs := Function.update s.lastVcs vc.id (some vc),
                                       lastViews := Function.update s.lastViews vc.id lv } := by
  refine ⟨h.nvs, h.idle, fun k x hk => ?_, h.past, h.outs, h.nonneg⟩
  have hk : Function.update s.lastVcs vc.id (some vc) k = some x := hk
  by_cases he : k = vc.id
  · subst he
    rw [Function.update_self] at hk
    cases hk
    exact ⟨rfl, hv, hvc⟩
  · rw [Function.update_of_ne he] at hk
    exact h.vcs k x hk

theorem moveVC_source (h : Sourced cfg id VC NV RE w s) (j : Nat) (v : Int) (i : Nat) :
    Source cfg id VC NV RE w (moveVC cfg id j v i) s := by
  refine .get_bind ?_
  cases hvc : s.lastVcs i with
  | none => exact .pure h.stay
  | some vc =>
    obtain ⟨-, hv, hVC⟩ := h.vcs i vc hvc
    refine .when h.stay fun _ => .bind source_composes (onNv_source h ?_)
      fun added t ht => .when ht.1.stay fun _ => source_modify (ht.1.dropVC i) rfl
    exact NVInfo.addViewChange_roots (matching_nvEnv s) (h.nvs j) true hVC fun _ he => he ▸ hv

theorem moveAck_source (h : Sourced cfg id VC NV RE w s) (i k : Nat) :
    Source cfg id VC NV RE w (moveAck cfg id i k) s := by
  refine .get_bind ?_
  cases (s.vacks i).vacks k with
  | none => exact .pure h.stay
  | some ack =>
    refine .when h.stay fun _ => .bind source_composes
      (onNv_source h (NVInfo.addAck_roots (matching_nvEnv s) (h.nvs _) ack)) fun added t ht => ?_
    exact .when ht.1.stay fun _ => source_modify (ht.1.of_eq rfl rfl rfl rfl) rfl

theorem each_source {ι : Type} {x : ι → Prog ViewInfo Unit}
    (hx : ∀ i t, Sourced cfg id VC NV RE w t → Source cfg id VC NV RE w (x i) t)
    (h : Sourced cfg id VC NV RE w s) (is : List ι) : Source cfg id VC NV RE w (each x is) s :=
  .each source_composes h.stay (fun i t ht => hx i t ht.1) is

theorem storeViewChange_source (h : Sourced cfg id VC NV RE w s) {vc : ViewChange} (hv : vc.v ≠ 0)
    (hvc : VC vc) (vcv : Int) :
    Source cfg id VC NV RE w (storeViewChange cfg id vc vcv) s := by
  have hkeep := h.keepVC hv hvc vcv
  refine source_modify_bind hkeep rfl
    (.get_bind (.when hkeep.stay fun _ => .assert_bind hkeep.stay fun _ => ?_))
  refine source_modify_bind ?_ rfl (outAck_source ?_ _ _)
  · exact hkeep.of_eq rfl rfl rfl rfl
  · exact hkeep.of_eq rfl rfl rfl rfl

theorem matchViewChange_source (h : Sourced cfg id VC NV RE w s) {vc : ViewChange} (hvc : VC vc)
    (vcv : Int) {verified : Bool} (digestOk : Bool) (hver : verified = true → vc.v ≠ 0) :
    Source cfg id VC NV RE w (matchViewChange cfg id vc vcv verified digestOk) s := by
  refine .bind source_composes (onNv_source h (NVInfo.addViewChange_roots
    (matching_nvEnv s) (h.nvs _) digestOk hvc fun hv he => he ▸ hver hv))
    fun stored t ht =>
      .get_bind (.bind source_composes (.when ht.1.stay fun _ => ?_) fun _ u hu => ?_)
  · exact each_source (fun i t ht => moveAck_source ht i vc.id) ht.1 _
  · refine source_modify_bind ?_ (by split <;> rfl) (.pure ?_)
    · split
      · exact hu.1.of_eq rfl rfl rfl rfl
      · exact hu.1
    · refine Sourced.stay ?_
      split
      · exact hu.1.of_eq rfl rfl rfl rfl
      · exact hu.1

theorem addViewChange_source (h : Sourced cfg id VC NV RE w s) {vc : ViewChange} (hvc : VC vc)
    {verified : Bool} (digestOk : Bool) (hver : verified = true → vc.v ≠ 0) :
    Source cfg id VC NV RE w (addViewChange cfg id vc verified digestOk) s := by
  refine .get_bind (.ite (fun _ => .pure h.stay)
    fun _ => .ite (fun _ => matchViewChange_source h hvc _ digestOk hver) fun _ => ?_)
  refine .assert_bind h.stay fun _ => .ite (fun hg => ?_) fun _ => .pure h.stay
  simp only [Bool.and_eq_true] at hg
  exact .bind source_composes (storeViewChange_source h (hver hg.2) hvc _)
    fun _ t ht => .pure ht.1.stay

theorem addAck_source (h : Sourced cfg id VC NV RE w s) (vca : ViewChangeAck) (verified : Bool) :
    Source cfg id VC NV RE w (addAck cfg id vca verified) s := by
  refine .when h.stay fun _ => .assert_bind h.stay
    fun _ => .bind source_composes ?_ fun added t ht => .when ht.1.stay fun _ => ?_
  · refine .get_bind (.ite (fun _ => ?_) fun _ => .pure h.stay)
    exact onNv_source h (NVInfo.addAck_roots (matching_nvEnv s) (h.nvs _) vca)
  · refine source_modify ?_ ?_
    · unfold storeAck
      dsimp only
      split
      · exact ht.1.of_eq rfl rfl rfl rfl
      · exact ht.1
    · unfold storeAck
      dsimp only
      split <;> rfl

theorem markStable_source (h : Sourced cfg id VC NV RE w s) (ls : Int) :
    Source cfg id VC NV RE w (markStable cfg id ls) s := by
  have hlog : Sourced cfg id VC NV RE w { s with
    lastStable := ls, oplog := s.oplog.truncate cfg.P.maxOut OReqInfo.clear (ls + 1) } := by
    refine ⟨h.nvs, h.idle, h.vcs, fun k => ?_, h.outs, h.nonneg⟩
    have hk : (s.oplog.truncate cfg.P.maxOut OReqInfo.clear (ls + 1)).elems k = s.oplog.elems k ∨
      _ := Log.truncate_elems (ls + 1) k
    rcases hk with he | he
    · exact he ▸ h.past k
    · exact he ▸ OReqInfo.past_clear _ h.nonneg
  refine source_modify_bind hlog rfl (.get_bind (onNv_source hlog ?_))
  exact NVInfo.markStable_roots (hlog.nvs _) ls

theorem staleOne_source (h : Sourced cfg id VC NV RE w s) (i : Nat) :
    Source cfg id VC NV RE w (staleOne cfg id i) s := by
  have hdrop : Sourced cfg id VC NV RE w { s with
      lastVcs := if i = id then s.lastVcs else Function.update s.lastVcs i none
      lastViews :=
        if i ≠ id ∧ s.v ≤ s.lastViews i then Function.update s.lastViews i s.v else s.lastViews
      myVacks := Function.update s.myVacks i none } := by
    by_cases hi : i = id
    · exact h.of_eq rfl (if_pos hi) rfl rfl
    · exact (h.dropVC i).of_eq rfl (if_neg hi) rfl rfl
  refine source_modify_bind hdrop rfl ?_
  set s' : ViewInfo := { s with
      lastVcs := if i = id then s.lastVcs else Function.update s.lastVcs i none
      lastViews :=
        if i ≠ id ∧ s.v ≤ s.lastViews i then Function.update s.lastViews i s.v else s.lastViews
      myVacks := Function.update s.myVacks i none } with hs'
  have hop := onNv_sourced (j := i) hdrop (Q := fun (vc : Option ViewChange) _ => ∀ x,
    vc = some x → x.id = id ∧ x.v ≠ 0 ∧ VC x)
    ((NVInfo.markStale_roots (matching_nvEnv s') (hdrop.nvs i) (hdrop.idle i)).imp
      (fun _ _ ht => ht) fun _ ht => ht)
  refine Ensures.bind hop fun vc t ht => Reaches.modify trivial ⟨?_, ht.1.2⟩
  obtain ⟨⟨ht, -⟩, -, hvc⟩ := ht
  cases vc with
  | none => exact ht.of_eq rfl rfl rfl rfl
  | some x =>
    obtain ⟨hid, hne, hx⟩ := hvc x rfl
    by_cases hv : x.v = t.v
    · refine (ht.keepVC hne hx 0).of_eq rfl ?_ rfl rfl
      simp [hv, hid]
    · exact ht.of_eq rfl (by simp [hv]) rfl rfl

theorem markStale_source (h : Sourced cfg id VC NV RE w s) :
    Source cfg id VC NV RE w (markStale cfg id) s :=
  each_source (fun i _ ht => staleOne_source ht i) h _

/-! ## New views -/

theorem onNv_addNewView_source (h : Sourced cfg id VC NV RE w s) (houts : ∀ c, .call c ∉ s.outs)
    {nv : NewView} (hpos : 0 < nv.v) (hb : cfg.primary nv.v ≠ id → NV nv)
    (hp : cfg.primary nv.v = id → ∀ i, nv.vcInfo i = 0) :
    Ensures (onNv cfg id j fun V => NVInfo.addNewView V nv) s
      (fun _ t => Sourced cfg id VC NV RE w t ∧ ∀ k, k ≠ j → t.lastNvs k = s.lastNvs k)
      (fun t => Sourced cfg id VC NV RE w t ∧ ∀ k, k ≠ j → t.lastNvs k = s.lastNvs k) := by
  have hput : ∀ t, NVInfo.Sourced cfg id VC NV t → Sourced cfg id VC NV RE w (ViewInfo.put s j t) ∧
      ∀ k, k ≠ j → (ViewInfo.put s j t).lastNvs k = s.lastNvs k :=
        fun t ht => ⟨h.put ht (.inr houts), fun k hk => put_lastNvs_of_ne t hk⟩
  obtain ⟨h1, h2⟩ :=
    (NVInfo.addNewView_sourced (V := s.nvEnv cfg id) (h.nvs j) (h.idle j) hpos hb hp).result
  have happ : onNv cfg id j (fun V => NVInfo.addNewView V nv) s = _ := onNv_apply _
  refine Ensures.of_result (fun a ha => ?_) fun ha => ?_
  · rw [happ] at ha ⊢
    exact hput _ (h1 a ha).1
  · rw [happ] at ha ⊢
    exact hput _ (h2 ha)

/-- A new-view message from another replica. -/
theorem addNewView_source (h : Sourced cfg id VC NV RE w s) (houts : s.outs = []) {nv : NewView}
    {verified : Bool} (hver : verified = true → 0 < nv.v ∧ cfg.primary nv.v ≠ id ∧ NV nv) :
    Ensures (addNewView cfg id nv verified) s (fun _ t =>
        Sourced cfg id VC NV RE w t ∧ Frozen (s.lastNvs id) (t.lastNvs id))
      fun t => Sourced cfg id VC NV RE w t ∧ Frozen (s.lastNvs id) (t.lastNvs id) := by
  have hstay : Sourced cfg id VC NV RE w s ∧ Frozen (s.lastNvs id) (s.lastNvs id) := ⟨h, .refl⟩
  refine Reaches.get_bind (Reaches.when (fun hg => ?_) fun _ => hstay)
  simp only [Bool.and_eq_true, decide_eq_true_eq] at hg
  obtain ⟨hpos, hne, hnv⟩ := hver hg.1.2
  have hid : id ≠ nv.id cfg := fun he => hne he.symm
  have hadd := onNv_addNewView_source (j := nv.id cfg) h
    (by rw [houts]; exact fun _ => List.not_mem_nil) hpos (fun _ => hnv) fun he => absurd he hne
  have hfrozen : ∀ t : ViewInfo, (∀ k, k ≠ nv.id cfg → t.lastNvs k = s.lastNvs k) →
    Frozen (s.lastNvs id) (t.lastNvs id) := fun t ht => by
    rw [ht id hid]
    exact .refl
  refine Ensures.bind (hadd.imp (fun _ _ ht => ht) fun t ht => ⟨ht.1, hfrozen t ht.2⟩)
    fun stored t ht => Reaches.when (fun _ => ?_)
    fun _ => ⟨ht.1, hfrozen t ht.2⟩
  refine Ensures.imp (each_source (fun i u hu => moveVC_source hu (nv.id cfg) _ i) ht.1 _)
    (fun _ u hu => ⟨hu.1, ?_⟩) fun u hu => ⟨hu.1, ?_⟩
  · have := hu.2 id
    rw [ht.2 id hid] at this
    exact this
  · have := hu.2 id
    rw [ht.2 id hid] at this
    exact this

/-- A request of the new view is fetched. -/
theorem fetchRequest_source (h : Sourced cfg id VC NV RE w s) (hn : cfg.n ≤ 256)
    (hsent : cfg.primary (s.lastNvs j).v = id → (s.lastNvs j).nvSent = true) (n : Int) :
    Ensures (onNv cfg id j fun V => NVInfo.fetchRequest V n) s
      (fun r t => (Sourced cfg id VC NV RE w t ∧ FrozenAll s t) ∧ ∃ nv,
          (s.lastNvs j).nv = some nv ∧ nv.Picks cfg VC n r.2 ∧
        (cfg.primary (s.lastNvs j).v = id → r.1.digest = r.2) ∧ r.1.view = (s.lastNvs j).v)
      (fun t => Sourced cfg id VC NV RE w t ∧ FrozenAll s t) :=
  (onNv_sourced (Q := fun (r : PrePrepareMsg × Digest) _ => ∃ nv,
    (s.lastNvs j).nv = some nv ∧ nv.Picks cfg VC n r.2 ∧
    (cfg.primary (s.lastNvs j).v = id → r.1.digest = r.2) ∧ r.1.view = (s.lastNvs j).v)
      h (NVInfo.fetchRequest_picks (V := s.nvEnv cfg id) (h.nvs j) hn hsent n)).imp
    (fun _ _ ht => ⟨ht.1, ht.2.choose_spec⟩) fun _ ht => ht

theorem ackOther_source (h : Sourced cfg id VC NV RE w s) (vc : ViewChange) (i : Nat) :
    Source cfg id VC NV RE w (ackOther cfg id vc i) s := by
  refine .get_bind ?_
  cases s.lastVcs i with
  | none => exact .pure h.stay
  | some lvc =>
    refine .when h.stay fun _ => source_modify_bind ?_ rfl (outAck_source ?_ _ _)
    · exact h.of_eq rfl rfl rfl rfl
    · exact h.of_eq rfl rfl rfl rfl

theorem startNewView_source (h : Sourced cfg id VC NV RE w s) (houts : ∀ c, .call c ∉ s.outs)
    (hpos : 0 < s.v) (hp : cfg.primary s.v = id) :
    Ensures (startNewView cfg id) s (fun _ t => Sourced cfg id VC NV RE w t)
      (Sourced cfg id VC NV RE w) := by
  have hhold : ∀ {x : Prog ViewInfo Unit},
    (∀ t, Sourced cfg id VC NV RE w t → Source cfg id VC NV RE w x t) →
      Holds (Sourced cfg id VC NV RE w) (Sourced cfg id VC NV RE w) x :=
        fun hx t ht => Ensures.imp (hx t ht) (fun _ _ hu => hu.1) fun _ hu => hu.1
  refine Reaches.get_bind (Reaches.assert_bind h
    fun _ => Ensures.bind (Q := fun _ t => Sourced cfg id VC NV RE w t) ?_ fun _ t ht => ?_)
  · refine (onNv_addNewView_source h houts hpos (fun hne => absurd hp hne)
      fun _ _ => rfl).imp (fun _ _ ht => ht.1) fun _ ht => ht.1
  · have hrest : Holds (Sourced cfg id VC NV RE w) (Sourced cfg id VC NV RE w) (do
        each (moveVC cfg id id s.v) (List.range cfg.n)
        each (fun i => each (moveAck cfg id i) (List.range cfg.n)) (List.range cfg.n)) :=
      .bind (.each (fun i => hhold fun u hu => moveVC_source hu id s.v i) _) fun _ =>
        .each (fun i => .each (fun k => hhold fun u hu => moveAck_source hu i k) _) _
    exact hrest t ht

/-- **`view_change`**: the view-change that is built occurs from now on. -/
theorem viewChange_source {w' v : Int} (h : Sourced cfg id VC NV RE w' s) (houts : s.outs = [])
    (hw : w' ≤ v) (hpos : 0 < v) (le : Int) (word : Nat → BitVec 64) (entry : Nat → ReqInfo)
    (digest : Int → Option Digest) (hvc : ∀ vc,
      (discardOld { s with v }).buildViewChange cfg id word entry le digest = some vc → VC vc) :
    Ensures (viewChange cfg id v le word entry digest) s
      (fun _ t => Sourced cfg id VC NV RE v t) (Sourced cfg id VC NV RE v) := by
  have hold : Sourced cfg id VC NV RE v (discardOld { s with v }) := by
    refine ⟨fun j => ?_, fun j => ?_, fun i vc hi =>
      ?_, fun k => (h.past k).mono hw, fun o ho => ?_, by omega⟩
    · change NVInfo.Sourced cfg id VC NV (if (s.lastNvs j).v < v then (s.lastNvs j).clear
        else s.lastNvs j)
      split
      · exact NVInfo.sourced_clear (h.idle j)
      · exact h.nvs j
    · change (if (s.lastNvs j).v < v then (s.lastNvs j).clear else s.lastNvs j).calls = []
      split
      · exact h.idle j
      · exact h.idle j
    · have hi : (s.lastVcs i).filter (fun vc => decide (v ≤ vc.v)) = some vc := hi
      exact h.vcs i vc (Option.filter_eq_some_iff.1 hi).1
    · have ho : o ∈ s.outs := ho
      rw [houts] at ho
      cases ho
  have houts' : (discardOld { s with v }).outs = [] := houts
  refine Reaches.modify_bind trivial (Reaches.get_bind (Reaches.ofOption_bind hold fun vc hb => ?_))
  have hbuilt : vc.v = v ∧ vc.id = id := buildViewChange_header hb
  have hVC := hvc vc hb
  have hsend : Sourced cfg id VC NV RE v { discardOld { s with v } with
    outs := (discardOld { s with v }).outs ++ [.send none (.viewChange vc)] } :=
    hold.send fun o ho => by rw [List.mem_singleton.1 ho]; exact ⟨rfl, hVC⟩
  refine Reaches.modify_bind trivial (Reaches.modify_bind trivial ?_)
  have hkeep := hsend.keepVC (show vc.v ≠ 0 by omega) hVC v
  rw [hbuilt.2] at hkeep
  refine Reaches.ite (fun hp => startNewView_source hkeep (fun c hc => ?_) hpos hp) fun _ => ?_
  · have hc : Out.call c ∈ (discardOld { s with v }).outs ++ [.send none (.viewChange vc)] := hc
    rw [houts'] at hc
    cases List.mem_singleton.1 hc
  · exact Ensures.imp (each_source (fun i u hu => ackOther_source hu vc i) hkeep _)
      (fun _ _ ht => ht.1) fun _ ht => ht.1

end ViewInfo

end TinyBFT
