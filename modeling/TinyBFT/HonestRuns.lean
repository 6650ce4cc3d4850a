import TinyBFT.Honesty

/-!
# A replica keeps what its votes rest on

The rest of the handlers, and the events. `Hears` is what an event may bring: what verified was
heard, and a replica that sends a status message has been in the view that the message names.

| here | there |
| --- | --- |
| `newViewRequest_hinv` | the loop of `process_new_view`: a backup votes for the primary's digest |
| `enterView_hinv`  | `send_view_change` |
| `retransmitPps_hkeeps` | the proofs that a status message asks for (`Replica.cc:927-938`) |
-/

namespace TinyBFT

theorem ViewInfo.Sourced.later {cfg : Cfg} {id : Nat} {VC : ViewChange → Prop} {NV : NewView → Prop}
    {RE : Nat → Int → Prop} {w w' : Int} {s : ViewInfo} (h : ViewInfo.Sourced cfg id VC NV RE w s)
    (hw : w ≤ w') : ViewInfo.Sourced cfg id VC NV RE w' s :=
  ⟨h.nvs, h.idle, h.vcs, fun k => (h.past k).mono hw, h.outs, h.nonneg.trans hw⟩

namespace Replica

open Prog (Ensures Reaches Within Always Composes Holds get modify assert ofOption when each)
open ViewInfo (pnvOuts Fair isPnv)
open PreparedCert (Blank Calm Sane Lasting)
open Certificate (AllVals Counts)

variable {cfg : Cfg} {id : Nat} {H : Heard} {r : Int → Prop} {q : Nat} {v : Int}
    {base s t u : Replica} {α : Type}
  {h : NVCall → Prog Replica Unit} {n : Int}

section Calls

variable (hid : id < cfg.n)

include hid

/-! ## The normal case -/

/-- **`send_prepare`**: for the pre-prepare that the certificate has, which the primary of the view
sent. -/
theorem sendPrepare_hinv {m : PrePrepareMsg} (hs : HInv cfg id H r none q v base s) (hr : ∀ n, ¬r n)
    (hnew : s.v = 0 ∨ s.vi.hasNewView cfg s.v = true) (hpp : (s.cert cfg m.seqno).pp = some m)
    (hd : (s.cert cfg m.seqno).myPrepare = none → ∀ cv,
      (s.cert cfg m.seqno).pc.cvalue = some cv → cv.digest = m.digest)
    (hv : m.view = s.v) (hprim : cfg.primary m.view ≠ id) (hm : H.prePrepare m) :
    Ensures (sendPrepare cfg id m.seqno) s (fun _ t => HInv cfg id H r none q v base t)
      (HRest cfg id H base) := by
  refine fetchP_bind hs.rest fun pc hpc hw => ?_
  subst hpc
  rw [hpp]
  cases hmy : (s.cert cfg m.seqno).myPrepare with
  | some _ => exact Reaches.pure hs
  | none =>
    have hun : s.Unvoted m.seqno := hs.votes.unvoted hw hmy
    have hrec := hs.honest.toRecord.vote (p := ⟨s.v, m.seqno, m.digest, id, false⟩)
      rfl (by rw [← hv]; exact hprim) (.inl ⟨m, hm, hv, rfl, rfl⟩)
      fun p' hp' hpv => hun p' hp' hpv
    refine Reaches.get_bind (Reaches.modify_bind trivial ?_)
    have hb : Beside s { s with sent := (none, .prepare ⟨s.v, m.seqno, m.digest, id, false⟩) ::
                                  s.sent } := beside_cons fun _ _ he => by cases he
    refine Reaches.ofOption_bind ⟨hrec, hb.pledges hs.rest.pledges, hs.since.trans (grows_cons _)⟩
      fun res hres => Reaches.modify trivial ?_
    obtain ⟨h1, h2⟩ := PreparedCert.addMine_records hres (hd hmy)
    refine hs.vote hw hrec (((hs.honest.certs _).mono (fun p hp => List.mem_cons_of_mem _ hp)
      fun _ h => h).addMine hres hmy (voter_own hid rfl ?_))
      (fun hvals => PreparedCert.addMine_vals hres hvals ⟨rfl, rfl⟩)
        (PreparedCert.addMine_lasting (hs.honest.certs _).2.complete_pos hres)
      (hs.votes.vote rfl rfl hw hun hnew (fun n hn => absurd hn (hr n)) h1 h2)
    rw [← hv]
    exact hprim

omit hid in
/-- It sends no commit. -/
theorem sendPrepare_unsent (m : Int) (hun : s.Unsent m) :
    Ensures (sendPrepare cfg id n) s (fun _ t => t.v = s.v → t.Unsent m) fun _ => True := by
  refine fetchP_bind trivial fun pc _ _ => ?_
  cases pc.myPrepare with
  | some _ => exact Reaches.pure fun _ => hun
  | none =>
    cases pc.pp with
    | none => exact Reaches.pure fun _ => hun
    | some pp =>
      refine Reaches.get_bind (Reaches.modify_bind trivial (Reaches.ofOption_bind trivial
        fun res _ => Reaches.modify trivial fun _ c hc => ?_))
      rcases List.mem_cons.1 hc with he | hc
      · cases he
      · exact hun c hc

variable (hh : HServes cfg id H h)

include hh

theorem acceptPrePrepare_hinv {m : PrePrepareMsg} {nrc reqsOk : Bool}
    (hs : HInv cfg id H r none q v base s) (hr : ∀ n, ¬r n)
    (hnew : s.v = 0 ∨ s.vi.hasNewView cfg s.v = true) (hd : s.undisputed cfg id m nrc reqsOk = true)
    (hv : m.view = s.v) (hm : nrc = true → cfg.primary m.view ≠ id ∧ H.prePrepare m) :
    Ensures (acceptPrePrepare cfg id h m nrc reqsOk) s (fun _ t => HInv cfg id H r none q v base t)
      (HRest cfg id H base) := by
  refine fetchP_bind hs.rest fun pc hpc hw => Reaches.ofOption_bind hs.rest
    fun res hres => Reaches.modify_bind trivial ?_
  subst hpc
  have hfetch : s.plog.fetch cfg.P.maxOut m.seqno = some (s.cert cfg m.seqno) :=
    Log.fetch_eq_some.2 ⟨hw, rfl⟩
  rcases PreparedCert.addPrePrepare_cases hres with ⟨h1, h2⟩ | ⟨h1, hpp, hnrc, h2, -⟩
  · rw [h1, h2]
    exact Reaches.pure (hs.setCalm hw .refl (fun h => h) (fun h => h) fun hl => hl)
  obtain ⟨hprim, hm⟩ := hm hnrc
  -- the certificate has the pre-prepare now
  set t : Replica := { s with plog := s.plog.set cfg.P.maxOut m.seqno res.1 } with ht
  have hinv : HInv cfg id H r none q v base t := hs.setCalm hw (h2 ▸ .of_pc rfl) (h2 ▸
    fun h => h) (PreparedCert.addPrePrepare_lasting hres) fun hl =>
    hl.of_pc (by rw [h2]) fun m' hm' => by
      rw [h2] at hm'
      cases hm'
      exact ⟨hv.le, fun _ hp => absurd (hv ▸ hp) hprim⟩
  have hcert : t.cert cfg m.seqno = { s.cert cfg m.seqno with pp := some m } :=
    (Log.entry_set_self _).trans h2
  refine Reaches.when (fun _ => ?_) fun _ => hinv
  -- the certificate was not complete before, so that no commit was sent
  have hun : s.Unwrapped → s.Unsent m.seqno :=
    fun hu => (hs.pledged hu).locked.unsent hw (PreparedCert.not_complete_of_pp hpp)
  have hsend : Ensures (sendPrepare cfg id m.seqno) t (fun _ u => s.Unwrapped →
    u.v = t.v → u.Unsent m.seqno) fun _ => True :=
    .of_result (fun a ha hu => (sendPrepare_unsent (s := t) m.seqno (hun hu)).result.1 a ha)
      fun _ => trivial
  refine Ensures.bind (((sendPrepare_hinv hid hinv.since_start
    hr hnew (by rw [hcert]) ?_ hv hprim hm).and hsend).imp (fun _ _ h => h)
    fun _ h => h.1.since_before hinv.since) fun _ u hu =>
      commitIfComplete_hinv hid hh (hu.1.since_before hinv.since) fun hun =>
      hu.2 (hu.1.since.unwrapped hun) (hu.1.v.trans hinv.v.symm)
  rw [hcert]
  intro hmy cv hcv
  have hmy : (s.cert cfg m.seqno).myPrepare = none := hmy
  have hacc : (s.cert cfg m.seqno).accepts (cfg.env id) m nrc reqsOk = some true := by
    unfold PreparedCert.addPrePrepare at hres
    rw [hpp] at hres
    obtain ⟨b, hb, hres⟩ := Option.map_eq_some_iff.1
      (show ((s.cert cfg m.seqno).accepts (cfg.env id) m nrc reqsOk).map _ = some res from hres)
    cases b with
    | true => exact hb
    | false =>
      rw [← hres] at h1
      cases h1
  have hcv : (s.cert cfg m.seqno).pc.cvalue = some cv := hcv
  simpa [undisputed, hfetch, hpp, hmy, hacc, hcv] using hd

theorem handlePrePrepare_hinv {m : PrePrepareMsg} {nrc reqsOk : Bool} (digestOk : Bool)
    (hs : HInv cfg id H r none q v base s) (hr : ∀ n, ¬r n) (hd : s.v = m.view →
      s.hasNewView cfg = true → s.lowBound < m.seqno → s.undisputed cfg id m nrc reqsOk = true)
    (hm : nrc = true → m.view = s.v → cfg.primary m.view ≠ id ∧ H.prePrepare m) :
    Ensures (handlePrePrepare cfg id h m nrc reqsOk digestOk)
      s (fun _ t => HInv cfg id H r none q v base t) (HRest cfg id H base) := by
  refine Ensures.bind ((inWv_apart cfg _ _ _).imp (fun _ _ h => h) fun t ht => ht.hrest hs.rest) ?_
  rintro w t ⟨ht, hw⟩
  refine Reaches.get_bind (Reaches.ite (fun hc => ?_)
    fun _ => Reaches.when (fun _ => ?_) fun _ => ht.hinv hs)
  · simp only [Bool.and_eq_true, decide_eq_true_eq] at hc
    obtain ⟨rfl, hv⟩ := hw hc.1.1
    exact acceptPrePrepare_hinv hid hh hs hr (hasNewView_cases hc.2) (hd hv.symm hc.2 hc.1.2) hv
      fun h => hm h hv
  · exact onVi_hkeeps hh hid (fun hw _ => ViewInfo.addMissing_keeps hid hw m digestOk)
      (fun hs => ViewInfo.onNv_source hs (NVInfo.addMissing_roots
        (ViewInfo.matching_nvEnv _) (hs.nvs _) m digestOk)) t (ht.hinv hs)

theorem acceptPrepare_hinv {m : Prepare} {verify : Bool} (hs : HInv cfg id H r none q v base s)
    (hr : ∀ n, ¬r n) (hnew : s.v = 0 ∨ s.vi.hasNewView cfg s.v = true) (hv : m.view = s.v)
    (hprim : m.id ≠ cfg.primary m.view) (hm : verify = true → m.id ≠ id → H.prepare m) :
    Ensures (acceptPrepare cfg id h m verify) s (fun _ t => HInv cfg id H r none q v base t)
      (HRest cfg id H base) := by
  refine fetchP_bind hs.rest fun pc hpc hw => Reaches.ofOption_bind hs.rest
    fun res hres => Reaches.modify_bind trivial ?_
  subst hpc
  obtain ⟨h1, h2⟩ := PreparedCert.add_sane hres (hs.votes.sane m.seqno)
  obtain ⟨hlast, hfull⟩ :=
    PreparedCert.add_lasting (hs.honest.certs (Log.slot cfg.P.maxOut m.seqno)).2.complete_pos hres
  have hinv :=
    hs.exchange hw hr hnew h1 h2 (fun hvals => PreparedCert.add_vals hres hvals ⟨hv, rfl⟩) hlast
    ((hs.honest.certs (Log.slot cfg.P.maxOut m.seqno)).add hres
      fun hv hlt hne => ⟨hlt, hprim, fun he => absurd he hne, fun _ => hm hv hne⟩)
  refine Reaches.when (fun hcounted => commitIfComplete_hinv hid hh hinv fun hu => ?_) fun _ => hinv
  have hcounted : res.2 = true := hcounted
  refine (hs.pledged hu).locked.unsent hw fun hc => ?_
  rw [hfull hc] at hcounted
  cases hcounted

theorem handlePrepare_hinv {m : Prepare} {verify : Bool} (hs : HInv cfg id H r none q v base s)
    (hr : ∀ n, ¬r n) (hm : verify = true → m.id ≠ id → m.view = s.v → H.prepare m) :
    Ensures (handlePrepare cfg id h m verify) s (fun _ t => HInv cfg id H r none q v base t)
      (HRest cfg id H base) := by
  refine Ensures.bind ((inWv_apart cfg _ _ _).imp (fun _ _ h => h) fun t ht => ht.hrest hs.rest) ?_
  rintro w t ⟨ht, hw⟩
  refine Reaches.get_bind (Reaches.ite (fun hc => ?_)
    fun _ => Reaches.when (fun _ => ?_) fun _ => ht.hinv hs)
  · simp only [Bool.and_eq_true, bne_iff_ne] at hc
    obtain ⟨rfl, hv⟩ := hw hc.1.1.1
    refine acceptPrepare_hinv hid hh hs hr (hasNewView_cases hc.2) hv ?_ fun h1 h2 => hm h1 h2 hv
    rw [hv]
    exact hc.1.2.symm
  · exact onVi_hkeeps hh hid (fun hw _ => ViewInfo.addMissingPrepare_keeps hid hw m)
      (fun hs => ViewInfo.onNv_source hs
        (NVInfo.addMissingPrepare_roots (ViewInfo.matching_nvEnv _) (hs.nvs _) m)) t (ht.hinv hs)

/-! ## A new view -/

/-- One pre-prepare of the new view, and the prepare for it. -/
theorem newViewRequest_hinv (hn : cfg.n ≤ 256) {i : Int} {is : List Int}
    (hs : HInv cfg id H (· ∈ i :: is) none q v base s)
    (hslot : ∀ n ∈ is, Log.slot cfg.P.maxOut n ≠ Log.slot cfg.P.maxOut i) :
    Ensures (newViewRequest cfg id h i) s (fun _ t => HInv cfg id H (· ∈ is) none q v base t)
      (HRest cfg id H base) := by
  refine Ensures.imp (Q := fun _ t => HInv cfg id H (· ∈ is) none q v s t)
    (E := HRest cfg id H s) ?_ (fun _ t ht => ht.since_before hs.since)
    fun t ht => ht.since_before hs.since
  obtain ⟨hnew, -, -⟩ := hs.votes.reserved i List.mem_cons_self
  have hviV := hs.votes.viV
  set j := cfg.primary s.vi.v with hj
  have hcomp : (s.vi.lastNvs j).isComplete = true := by rw [hj, hviV]; exact hnew
  obtain ⟨hvj, -, -⟩ := current_of_complete hid hs.votes.vi hcomp
  rw [hviV] at hvj
  have hsent : cfg.primary (s.vi.lastNvs j).v = id → (s.vi.lastNvs j).nvSent = true := fun hp => by
    rw [hvj] at hp
    rw [show j = id by rw [hj, hviV, hp]]
    exact hs.honest.closed hp hnew
  have hop := ViewInfo.fetchRequest_source hs.honest.vi hn hsent i
  have hkeep := onVi_hinv hh hid (A := True) (b := fun _ => q)
    hs.since_start (ViewInfo.fetchRequest_keeps hid hs.votes.vi (j := j) i)
    (hop.imp (fun _ w hw => ⟨hw.1.1, hw.1.2 id⟩) fun w hw => ⟨hw.1, hw.2 id⟩)
    fun hk x hx => (hk.held trivial x (by rw [hviV]; exact hx)).trans (hs.votes.held x hx)
  refine Reaches.get_bind (Ensures.bind hkeep ?_)
  rintro ⟨pp, d⟩ t ⟨ht, hres⟩
  obtain ⟨-, nv, hnv, hpick, hdig, hppv⟩ := hop.result.1 _ hres
  rw [hvj] at hdig hppv
  have hg : Grows s t := ht.since
  have htv : t.v = s.v := ht.v.trans hs.v.symm
  have hpick' : nv.Picks cfg (Known H t) i d := hpick.mono fun _ => hg.known
  have hweak : HInv cfg id H (· ∈ is) none q v s t :=
    ht.weaken fun n hn => List.mem_cons_of_mem _ hn
  obtain ⟨hnew', hun, hblank⟩ := ht.votes.reserved i List.mem_cons_self
  refine fetchP_bind ht.rest fun pc hpc hw =>
    Reaches.get_bind (Reaches.ite (fun hp => ?_) fun hp => ?_)
  · -- the primary has announced the message
    subst hpc
    have hp : cfg.primary t.v = id := by simpa [isPrimary] using hp
    have hp : cfg.primary s.v = id := htv ▸ hp
    have hji : j = id := by rw [hj, hviV, hp]
    obtain ⟨-, hppn⟩ := (ViewInfo.fetchRequest_result hs.votes.vi
      (by rw [hviV]; exact hp) (by rw [hviV]; exact hnew) i).result.1 _ hres
    have hnvv : nv.v = s.v :=
      (((hs.honest.vi.nvs j).own (by rw [hvj]; exact hp)) nv hnv).1.trans hvj
    have htold : (none, .newView nv) ∈ t.sent :=
      hg.sent _ ((hs.honest.told nv hnvv).2 ⟨hp, hnew, hji ▸ hnv⟩)
    have hppv : pp.view = t.v := hppv.trans htv.symm
    have hppn : pp.seqno = i := hppn
    have hcreate := hweak.create pp t.lastStable hppv (.inr hnew') fun nv' hnv' hv' _ _ => by
      rw [ht.honest.once nv' nv hnv' htold (hv'.trans (htv.trans hnvv.symm)), hppn, hdig hp]
      exact hpick'
    refine Reaches.modify_bind trivial (Reaches.ofOption_bind hcreate.rest
      fun pc' hpc' => Reaches.modify trivial ?_)
    exact hcreate.setCalm hw (PreparedCert.addMinePrePrepare_calm hpc')
      (by rw [PreparedCert.addMinePrePrepare_pc hpc']; exact fun h => h)
      (PreparedCert.addMinePrePrepare_lasting hpc')
        fun hl => hl.addMinePrePrepare hpc' ⟨hppv.le, fun _ _ => ⟨_, List.mem_cons_self, rfl⟩⟩
  · subst hpc
    have hp : cfg.primary t.v ≠ id := by simpa [isPrimary] using hp
    have hp' : cfg.primary (s.vi.lastNvs j).v ≠ id := by rw [hvj, ← htv]; exact hp
    obtain ⟨hheard, hnvv, -⟩ := (hs.honest.vi.nvs j).heard hp' nv hnv
    refine Reaches.ofOption_bind ht.rest fun res hres => Reaches.modify_bind trivial ?_
    obtain ⟨hmine, hsane⟩ := PreparedCert.addMine_records hres fun cv hcv => by
      rw [hblank.cvalue] at hcv
      cases hcv
    have hrec := ht.honest.toRecord.vote (p := ⟨t.v, i, d, id, false⟩)
      rfl hp (.inr ⟨nv, hheard, hnvv.trans (hvj.trans htv.symm), hpick'⟩)
      fun p' hp' hpv => hun p' hp' hpv
    have hvote := hweak.vote hw hrec (((ht.honest.certs (Log.slot cfg.P.maxOut i)).mono
      (fun p hp => List.mem_cons_of_mem _ hp) fun _ h => h).addMine
      hres hblank.mym (voter_own hid rfl hp)) (fun hvals =>
        PreparedCert.addMine_vals hres hvals ⟨rfl, rfl⟩)
      (PreparedCert.addMine_lasting (ht.honest.certs _).2.complete_pos hres)
        (hweak.votes.vote rfl rfl hw hun (.inr hnew') hslot hmine hsane)
    refine Reaches.assert_bind hvote.rest fun _ => Reaches.ofOption_bind hvote.rest
      fun pc' hpc' => Reaches.modify trivial ?_
    have hself : Replica.cert cfg { t with plog := t.plog.set cfg.P.maxOut i res.1, sent := (none,
      .prepare ⟨t.v, i, d, id, false⟩) :: t.sent } i =
        res.1 := Log.entry_set_self _
    refine hvote.setCalm hw ?_ ?_ ?_ fun hl => ?_
    · rw [hself]
      exact PreparedCert.addOld_calm hpc'
    · rw [hself, PreparedCert.addOld_pc hpc']
      exact fun h => h
    · rw [hself]
      exact PreparedCert.addOld_lasting hpc'
    · rw [hself] at hl
      exact hl.addOld hpc' ⟨(hppv.trans htv.symm).le, fun _ he => absurd he hp⟩

omit hid hh in
/-- A backup announces nothing. -/
theorem HDue.adopt (hs : HDue cfg id H r q v base s) (hp : cfg.primary s.v ≠ id) (m : Int) :
    HInv cfg id H (fun _ => True) none q v base { s with seqno := m } := by
  have hb : Beside s { s with seqno := m } := .of_eq rfl rfl rfl rfl rfl
  have hrooted : Rooted cfg id H { s with seqno := m } :=
    hs.awaiting.toRooted.extend (hs.awaiting.toRecord.of_eq rfl rfl rfl)
      (.of_eq rfl rfl rfl le_rfl le_rfl) rfl rfl hs.awaiting.certs (fun _ hc => .inl hc)
      fun _ hnv => hnv
  exact ⟨hs.votes.inv.of_eq rfl rfl rfl rfl, { hrooted with
    fresh := fun _ _ => hs.awaiting.fresh
    told :=
      fun nv hnv => ⟨fun hm => absurd hnv (hs.awaiting.untold nv hm), fun hm => absurd hm.1 hp⟩
    closed := fun he => absurd he hp
    above := fun nv hm hnv => absurd hnv (hs.awaiting.untold nv hm) },
      hb.pledged hs.pledged, fun _ _ hn => (by cases hn), hs.v,
    hs.since.keep rfl rfl rfl le_rfl le_rfl⟩

omit hid hh in
/-- The primary announces its new view. -/
theorem HDue.announce (hs : HDue cfg id H r q v base s) (hp : cfg.primary s.v = id)
    (hnew : s.vi.hasNewView cfg s.v = true) {nv : NewView} (hnv : (s.vi.lastNvs id).nv = some nv)
    (hv : nv.v = s.v) (hclosed : (s.vi.lastNvs id).nvSent = true) {m : Int} (hm : nv.max ≤ m + 1) :
    HInv cfg id H (fun _ => True) none q v base { s with sent := (none, .newView nv) :: s.sent,
                                                         seqno := m } := by
  set t : Replica := { s with sent := (none, .newView nv) :: s.sent, seqno := m } with ht
  have hg : Grows s t :=
    ⟨fun _ ho => List.mem_cons_of_mem _ ho, fun _ h => h, fun _ h => h, le_rfl, le_rfl⟩
  have hb : Beside { s with seqno := m } t := beside_cons fun _ _ he => by cases he
  have hb : Beside s t := ⟨hb.v, hb.plog, hb.clog, hb.committed, hb.sent, hb.commits, hb.resent⟩
  have hcase : ∀ {dest nv'}, (dest, .newView nv') ∈ t.sent →
    dest = none ∧ nv' = nv ∨ (dest, .newView nv') ∈ s.sent := fun hmem => by
    rcases List.mem_cons.1 hmem with he | hmem
    · cases he
      exact .inl ⟨rfl, rfl⟩
    · exact .inr hmem
  have hself : (none, .newView nv) ∈ t.sent := List.mem_cons_self
  have hold : ∀ nv', (none, .newView nv') ∈ s.sent → nv'.v ≠ nv.v :=
    fun nv' hmem => hv ▸ hs.awaiting.untold nv' hmem
  have hrec : Record cfg id H t := by
    refine ⟨hs.awaiting.agreed, fun p hp => ?_, fun k p hmem => ?_, fun dest m hmem hp =>
      ?_, fun dest nv' hmem => ?_, fun a b ha hb hab => ?_, fun c hc nv' hmem hcv h1 h2 => ?_,
      fun pp hpp => hs.awaiting.committed pp hpp⟩
    · obtain ⟨h1, h2, h3⟩ := hs.awaiting.motive p hp
      exact ⟨h1, h2, h3.mono hg⟩
    · rcases List.mem_cons.1 hmem with he | hmem
      · cases he
      · exact hs.awaiting.proofs k p hmem
    · rcases List.mem_cons.1 hmem with he | hmem
      · cases he
      · exact hs.awaiting.issued dest m hmem hp
    · rcases hcase hmem with ⟨-, rfl⟩ | hmem
      · exact hself
      · exact hg.sent _ (hs.awaiting.news dest nv' hmem)
    · rcases hcase ha with ⟨-, ha'⟩ | ha'
      · rcases hcase hb with ⟨-, hb'⟩ | hb'
        · exact ha'.trans hb'.symm
        · exact absurd (ha' ▸ hab.symm) (hold b hb')
      · rcases hcase hb with ⟨-, hb'⟩ | hb'
        · exact absurd (hb' ▸ hab) (hold a ha')
        · exact hs.awaiting.once a b ha' hb' hab
    · rcases hcase hmem with ⟨-, rfl⟩ | hmem
      · exact absurd (hcv.symm.trans hv) (hs.awaiting.fresh c hc)
      · exact (hs.awaiting.picked c hc nv' hmem hcv h1 h2).mono fun _ => hg.known
  have hrooted : Rooted cfg id H t :=
    { hrec with
      vi := hs.awaiting.vi.mono (fun _ => hg.known) (fun _ h => h) fun _ _ h => h
      certs := hs.awaiting.certs
      views := hs.awaiting.views
      newViews := fun nv' hmem => by
        rcases hcase hmem with ⟨-, rfl⟩ | hmem
        · exact hv.le
        · exact hs.awaiting.newViews nv' hmem }
  refine ⟨hs.votes.inv.of_eq rfl rfl rfl rfl, { hrooted with
    fresh := fun _ _ => hs.awaiting.fresh
    told := fun nv' hnv' => ⟨fun hmem => ?_, fun h => ?_⟩
    closed := fun _ _ => hclosed
    above := fun nv' hmem hnv' => ?_ }, hb.pledged hs.pledged,
      fun _ _ hn => (by cases hn), hs.v, hs.since.trans hg⟩
  · rcases hcase hmem with ⟨-, rfl⟩ | hmem
    · exact ⟨hp, hnew, hnv⟩
    · exact absurd hnv' (hs.awaiting.untold nv' hmem)
  · have he : (s.vi.lastNvs id).nv = some nv' := h.2.2
    rw [hnv] at he
    cases he
    exact hself
  · rcases hcase hmem with ⟨-, rfl⟩ | hmem
    · exact hm
    · exact absurd hnv' (hs.awaiting.untold nv' hmem)

/-- **`process_new_view`**: the new view is announced before anything is created in it. -/
theorem processNewView_hinv (hn : cfg.n ≤ 256) (hs : HDue cfg id H r q v base s)
    {min max ms : Int} {d : Digest}
    (hf : Fair cfg id (Known H s) H.reached s.vi.lastNvs (.call (.processNewView min d max ms))) :
    Ensures (processNewView cfg id h min max ms) s (fun _ t => HInv cfg id H r none q v base t)
      (HRest cfg id H base) := by
  obtain ⟨j, hcomp, hprim⟩ := hf
  obtain ⟨hvj, hj, -⟩ := current_of_complete hid hs.votes.inv.vi hcomp
  rw [hs.votes.inv.viV] at hvj hj
  rw [hvj] at hprim
  refine Reaches.assert_bind hs.rest fun _ => Reaches.get_bind ?_
  refine Ensures.bind (Q := fun _ t =>
    HInv cfg id H (fun _ => True) none q v base { t with seqno := max - 1 }) ?_ fun _ t ht => ?_
  · refine Reaches.when (fun hp => ?_) fun hp => hs.adopt (by simpa [isPrimary] using hp) _
    have hp : cfg.primary s.v = id := by simpa [isPrimary] using hp
    have hji : j = id := hj.trans hp
    subst hji
    obtain ⟨hsent, nv, hnv, hmax⟩ := hprim hp
    refine Reaches.modify_bind trivial (Reaches.ofOption_bind
      (hs.rest.of_eq rfl rfl rfl rfl rfl rfl) fun nv' hnv' => Reaches.modify trivial ?_)
    have he : (s.vi.lastNvs j).nv = some nv' := hnv'
    rw [hnv] at he
    cases he
    have hnvv := ((hs.awaiting.vi.nvs j).own (by rw [hvj]; exact hp) nv hnv).1
    have hnew : s.vi.hasNewView cfg s.v = true := by
      change (s.vi.lastNvs (cfg.primary s.v)).isComplete = true
      rw [← hj]
      exact hcomp
    exact (hs.announce hp hnew hnv (hnvv.trans hvj) hsent (m := max - 1) (by omega)).of_eq
      rfl rfl rfl rfl rfl rfl le_rfl rfl
  set lo := if min < s.lastStable then s.lastStable else min with hlo
  refine Reaches.modify_bind trivial (Ensures.bind (Q := fun _ u =>
    HInv cfg id H (fun _ => True) none q v base u) ?_ fun _ u hu => ?_)
  · have hstart : HInv cfg id H (fun _ => True) none q v
      base { t with limbo := false, seqno := max - 1, lowBound := lo } :=
      ht.of_eq rfl rfl rfl rfl rfl rfl le_rfl rfl
    exact Reaches.when (fun _ => markStable_hkeeps hid hh _ _ _ _ hstart) fun _ => hstart
  refine Reaches.get_bind (Reaches.assert_bind hu.rest fun hwin => ?_)
  obtain ⟨hwin1, hwin2⟩ : u.lastStable ≤ lo ∧ max - u.lastStable - 1 ≤ cfg.P.maxOut := by
    simpa using hwin
  refine Ensures.bind (each_window (I := fun r => HInv cfg id H r none q v base)
    (fun ht => newViewRequest_hinv hid hh hn ht) (hu.weaken fun _ _ => trivial)
    (show max - (lo + 1) ≤ cfg.P.maxOut by omega)) fun _ w hw => ?_
  have hw : HInv cfg id H r none q v base w := hw.weaken fun n hn => absurd hn (hs.votes.none n)
  have hrest : HKeeps cfg id H r none q v base (do
      let s ← get
      when (s.isPrimary cfg id) (sendPrePrepare cfg id)
      let s ← get
      if s.lastExecuted < lo then do
        modify fun s => { s with hasNvState := false }
        onState fun st => st.startFetch cfg s.lastExecuted
      else modify fun s => { s with hasNvState := true }) := by
    refine .get_bind fun s => .bind (.when fun _ => sendPrePrepare_hkeeps)
      fun _ => .get_bind fun s => .ite (fun _ => ?_) fun _ => ?_
    · exact apart_modify (fun _ => .of_eq rfl rfl rfl rfl rfl rfl rfl le_rfl rfl)
        (apart_hkeeps (onState_apart _))
    · exact apart_hkeeps (.modify fun _ => .of_eq rfl rfl rfl rfl rfl rfl rfl le_rfl rfl)
  exact hrest w hw

end Calls

/-- The calls of the `NV_info`s, however deep. -/
theorem handleCall_hserves (hid : id < cfg.n) (hn : cfg.n ≤ 256) :
    ∀ depth, HServes cfg id H (handleCall cfg id depth)
  | 0 => ⟨.stop, fun _ _ _ _ _ _ _ _ _ hs _ => Reaches.stop hs.rest⟩
  | depth + 1 =>
    ⟨sendStatus_apart cfg, fun _ _ _ _ _ _ _ _ _ hs hf =>
      processNewView_hinv hid (handleCall_hserves hid hn depth) hn hs hf⟩

theorem calls_hserves (hid : id < cfg.n) (hn : cfg.n ≤ 256) : HServes cfg id H (calls cfg id) :=
  handleCall_hserves hid hn 3

/-! ## Entering a view -/

/-- On the way into view `nv`, in which nothing was created or announced. -/
structure HLeaving (cfg : Cfg) (id : Nat) (H : Heard) (nv : Int) (done : Int → Prop)
    (base s : Replica) : Prop where
  votes : VLeaving cfg id nv done s
  awaiting : Awaiting cfg id H s
  pledges : s.Unwrapped → Pledges cfg id H s
  vacating : s.Unwrapped → Vacating cfg nv done s
  since : Grows base s

variable {nv : Int} {done done' : Int → Prop}

theorem HLeaving.rest (hs : HLeaving cfg id H nv done base s) : HRest cfg id H base s :=
  ⟨hs.awaiting.toRecord, hs.pledges, hs.since⟩

theorem HLeaving.weaken (hs : HLeaving cfg id H nv done base s) (hd : ∀ n, done' n → done n) :
    HLeaving cfg id H nv done' base s :=
  ⟨{ hs.votes with cleared := fun n hn => hs.votes.cleared n (hd n hn) },
    hs.awaiting, hs.pledges, fun hu => (hs.vacating hu).weaken hd, hs.since⟩

theorem Apart.vleaving (h : Apart s t) (hs : VLeaving cfg id nv done s) :
    VLeaving cfg id nv done t := by
  refine ⟨?_, ?_, ?_, ?_, ?_, ?_, ?_, ?_⟩ <;> simp only [Agreed, cert, h.v, h.vi, h.votes, h.plog]
  exacts [hs.agreed, hs.vi, hs.outs, hs.v, hs.viV, hs.held, hs.past, hs.cleared]

theorem Apart.hleaving (h : Apart s t) (hs : HLeaving cfg id H nv done base s) :
    HLeaving cfg id H nv done base t :=
  ⟨h.vleaving hs.votes, h.awaiting hs.awaiting, h.beside.pledges hs.pledges,
    fun hu => h.beside.vacating (hs.vacating (h.beside.unwrapped hu)),
    hs.since.trans h.grows⟩

theorem apart_hleaving {x : Prog Replica α} (hx : Always Apart x)
    (hs : HLeaving cfg id H nv done base s) :
    Ensures x s (fun _ t => HLeaving cfg id H nv done base t) (HRest cfg id H base) :=
  (apart_ensures hx s).imp (fun _ _ ht => ht.hleaving hs) fun _ ht => ht.hrest hs.rest

/-- The state of the parts of `vi` changes, and nothing is sent. -/
theorem Awaiting.serve (hs : Awaiting cfg id H s) {w : ViewInfo}
    (hw : ViewInfo.Sourced cfg id (Known H s) H.newView H.reached s.v w) :
    Awaiting cfg id H (served s w) :=
  { hs with
    toRecord := hs.toRecord.of_eq rfl rfl rfl
    vi := ⟨hw.nvs, hw.idle, hw.vcs, hw.past, fun _ ho => (List.not_mem_nil ho).elim, hw.nonneg⟩ }

theorem noteCert_source {VC : ViewChange → Prop} {NV : NewView → Prop} {RE : Nat → Int → Prop}
    {w : Int} {vi : ViewInfo} (h : ViewInfo.Sourced cfg id VC NV RE w vi) (hw : vi.v < w) (i : Int)
    (pc : PreparedCert) (complete : Bool) :
    ViewInfo.Source cfg id VC NV RE w (noteCert cfg i pc complete) vi := by
  unfold noteCert
  cases (if complete then pc.pp else none) with
  | some pp => exact ViewInfo.addComplete_source h hw pp
  | none =>
    cases voted pc with
    | none => exact .pure h.stay
    | some d => exact ViewInfo.addIncomplete_source h hw i d

/-- An operation of `vi` that asks for nothing. -/
theorem onVi_mute {op : Prog ViewInfo α} {Q : α → ViewInfo → Prop} {N : Replica → Prop}
    (hop : Ensures op s.vi (fun a w => Q a w ∧ w.outs = []) fun w => w.outs = [])
    (hN : ∀ w, N (served s w)) :
    Ensures (onVi h op) s (fun a t => ∃ w, t = served s w ∧ Q a w) N := by
  refine Ensures.of_apply (y := do perform h (op s.vi).2.outs; ofOption (op s.vi).1)
    (t := served s (op s.vi).2) rfl ?_
  have hnone : (op s.vi).2.outs = [] := by
    cases ho : (op s.vi).1 with
    | some a => exact (hop.result.1 a ho).2
    | none => exact hop.result.2 ho
  rw [hnone]
  refine Ensures.bind (Q := fun _ x => x = served s (op s.vi).2) (Reaches.pure rfl) fun _ x hx => ?_
  subst hx
  exact Reaches.ofOption (hN _) fun a ha => ⟨_, rfl, (hop.result.1 a ha).1⟩

theorem Awaiting.relog (hs : Awaiting cfg id H s) {l : Log PreparedCert}
    {l' : Log (Certificate Commit)} (hhead : s.plog.head ≤ l.head)
    (hl : ∀ k, Ledgered cfg id H s.votes (Logged cfg id s) (l.elems k)) :
    Awaiting cfg id H { s with plog := l, clog := l' } :=
  have hr : Rooted cfg id H { s with plog := l, clog := l' } :=
    hs.toRooted.extend (hs.toRecord.of_eq rfl rfl rfl) (.of_eq rfl rfl rfl le_rfl hhead)
      rfl rfl hl (fun _ hc => .inl hc) fun _ hnv => hnv
  hs.extend hr rfl (fun _ hc => hc) fun _ hnv => hnv

/-- The certificate for `i` is noted and cleared. -/
theorem collect_hleaving {i : Int} (hs : HLeaving cfg id H nv done base s)
    (hd : ∀ n, done' n → done n ∨ Log.slot cfg.P.maxOut n = Log.slot cfg.P.maxOut i) :
    Ensures (collect cfg h i) s (fun _ t => HLeaving cfg id H nv done' base t)
      (HRest cfg id H base) := by
  have hlt : s.vi.v < s.v := by
    rw [hs.votes.v]
    exact hs.votes.viV
  have hrest : Ensures (collect cfg h i) s (fun _ t =>
    Awaiting cfg id H t ∧ (t.Unwrapped → Pledges cfg id H t) ∧
      (t.Unwrapped → Vacating cfg nv done' t) ∧ Grows base t) (HRest cfg id H base) := by
    refine fetchP_bind hs.rest fun pc hpc hrange => fetchC_bind hs.rest
      fun cc hcc _ => Reaches.ofOption_bind hs.rest fun complete _ => ?_
    subst hpc hcc
    have hcert : Ledgered cfg id H s.votes (Logged cfg id s) (s.cert cfg i).clear :=
      (hs.awaiting.certs _).clear
    have hnote := (noteCert_ensures hs.votes.vi i (s.cert cfg i) complete).and
      (noteCert_source hs.awaiting.vi hlt i (s.cert cfg i) complete)
    refine Ensures.bind
      (onVi_mute (Q := fun _ w => ViewInfo.Sourced cfg id (Known H s) H.newView H.reached s.v w)
      (hnote.imp (fun _ w hw => ⟨hw.2.1, hw.1.2.trans hs.votes.outs⟩)
        fun w hw => hw.1.trans hs.votes.outs)
      fun w => hs.rest.of_eq rfl rfl rfl rfl rfl rfl) fun _ u hu => ?_
    obtain ⟨w, rfl, hw⟩ := hu
    refine Reaches.modify_bind trivial (Reaches.modify trivial
      ⟨(hs.awaiting.serve hw).relog le_rfl (certs_set hs.awaiting.certs hcert i), fun hu => ?_,
      fun hu => ?_, hs.since.keep rfl rfl rfl le_rfl le_rfl⟩)
    · exact (hs.pledges hu).of_eq rfl rfl
    · have hb : Beside s (served s w) := .of_eq rfl rfl rfl rfl rfl
      exact (hb.vacating (hs.vacating hu)).clear hrange hd
  exact ((collect_vleaving hs.votes hd).and hrest).imp
    (fun _ t ht => ⟨ht.1, ht.2.1, ht.2.2.1, ht.2.2.2.1, ht.2.2.2.2⟩) fun t ht => ht.2

section Views

variable (hid : id < cfg.n) (hh : HServes cfg id H h)

include hid hh

/-- **Entering the view `s.v`**: the view-change message goes first. -/
theorem enterView_hinv (hs : HLeaving cfg id H nv (fun _ => True) base s) (le : Int)
    (word : Nat → BitVec 64) (entry : Nat → ReqInfo) (digest : Int → Option Digest) :
    Ensures (onVi h (ViewInfo.viewChange cfg id s.v le word entry digest))
      s (fun _ t => HInv cfg id H (fun _ => False) none cfg.f nv base t)
      (HRest cfg id H base) := by
  have houts := hs.votes.outs
  have hlt : s.vi.v < s.v := by
    rw [hs.votes.v]
    exact hs.votes.viV
  have hpos : 0 < s.v := lt_of_le_of_lt hs.votes.vi.inv.nonneg hlt
  set op := ViewInfo.viewChange cfg id s.v le word entry digest with hop
  refine Ensures.of_apply (y := do perform h (op s.vi).2.outs; ofOption (op s.vi).1)
    (t := served s (op s.vi).2) rfl ?_
  have hserved : HRest cfg id H base (served s (op s.vi).2) := hs.rest.of_eq rfl rfl rfl rfl rfl rfl
  cases hvc : (ViewInfo.discardOld { s.vi with v := s.v }).buildViewChange
    cfg id word entry le digest with
  | none =>
    have hnone : op s.vi = (none, ViewInfo.discardOld { s.vi with v := s.v }) :=
      ViewInfo.viewChange_none _ _ _ _ _ hvc
    rw [show (op s.vi).2.outs = [] by rw [hnone]; exact houts,
      show (op s.vi).1 = none by rw [hnone]]
    exact Ensures.bind (Q := fun _ t => HRest cfg id H base t) (Reaches.pure hserved)
      fun _ t ht => Reaches.stop ht
  | some vc =>
    obtain ⟨rest, hrest⟩ := ViewInfo.viewChange_first houts _ _ _ _ _ hvc
    set s1 : Replica := { s with sent := (none, .viewChange vc) :: s.sent } with hs1
    have hapart : Apart s s1 :=
      ⟨rfl, rfl, rfl, rfl, rfl, rfl, rfl, le_rfl, [(none, .viewChange vc)], rfl,
      fun o ho => by rw [List.mem_singleton.1 ho]; trivial⟩
    have hsrc : ViewInfo.Sourced cfg id (Known H s1) H.newView H.reached s1.v (op s1.vi).2 :=
      Ensures.after <|
      ViewInfo.viewChange_source (hapart.awaiting hs.awaiting).vi
        houts le_rfl hpos le word entry digest fun vc' hvc' => by
        have hvc' : (ViewInfo.discardOld { s.vi with v := s.v }).buildViewChange
          cfg id word entry le digest = some vc' := hvc'
        rw [hvc] at hvc'
        cases hvc'
        exact .inr List.mem_cons_self
    have hawait : Awaiting cfg id H (served s1 (op s1.vi).2) :=
      (hapart.awaiting hs.awaiting).serve hsrc
    set w := (op s.vi).2 with hw
    have hpnv : pnvOuts w.outs = pnvOuts rest := by
      rw [hrest]
      exact pnvOuts_cons _ _
    have hvinv : ∀ (r : Int → Prop), (∀ n, r n → pnvOuts w.outs = 1) →
      (∃ x, ViewInfo.Entered cfg s.v s.vi x ∧ ViewInfo.Kept cfg id True True x w) →
        VInv cfg id r cfg.f (served s1 w) :=
          fun r hr ⟨x, hx, hk⟩ => (hs.votes.inv hx hk hr).of_eq rfl rfl rfl rfl
    obtain ⟨hk1, hk2⟩ := (ViewInfo.viewChange_ensures (K := True)
      (A := True) hid hs.votes.vi (by rw [houts]; rfl) hlt le word entry digest).result
    have hfair : ∀ o ∈ rest,
      Fair cfg id (Known H (served s1 w)) H.reached (served s1 w).vi.lastNvs o := fun o ho =>
      hsrc.outs o (by rw [show (op s1.vi).2.outs = _ from hrest]; exact List.mem_cons_of_mem _ ho)
    have hsince : Grows base (served s1 w) :=
      (hs.since.trans hapart.grows).keep rfl rfl rfl le_rfl le_rfl
    have hb1 : Beside s s1 := beside_cons fun _ _ he => by cases he
    have hb : Beside s (served s1 w) :=
      ⟨hb1.v, hb1.plog, hb1.clog, hb1.committed, hb1.sent, hb1.commits, hb1.resent⟩
    have hpledges : (served s1 w).Unwrapped → Pledges cfg id H (served s1 w) :=
      hb.pledges hs.pledges
    have hpledged : (served s1 w).Unwrapped → Pledged cfg id H (served s1 w) := fun hu => by
      have hvac := hb.vacating (hs.vacating (hb.unwrapped hu))
      rw [← show (served s1 w).v = nv from hs.votes.v] at hvac
      exact ⟨hpledges hu, hvac.enter⟩
    have hentered : (∃ x, ViewInfo.Entered cfg s.v s.vi x ∧ ViewInfo.Kept cfg id True True x w) →
        Ensures (perform h rest) (served s1 w) (fun _ t =>
          HInv cfg id H (fun _ => False) none cfg.f nv base t) (HRest cfg id H base) := by
      rintro ⟨x, hx, hk⟩
      have hwv : w.v = s.v := hk.v.trans hx.v
      refine perform_hinv hh rest _ hfair (hpnv ▸ hk.ok.once) (fun h0 => ?_) fun h1 => ?_
      · have hno : ¬w.hasNewView cfg s.v = true := fun hc => by
          rcases hk.called trivial (by rw [hwv]; exact hc) with h | h
          · rw [hx.v, hx.none] at h
            cases h
          · omega
        exact ⟨hvinv _ (fun _ hn => hn.elim) ⟨x, hx, hk⟩, { hawait with
          fresh := fun _ _ => hawait.fresh
          told := fun nv' hnv' =>
            ⟨fun hm => absurd hnv' (hawait.untold nv' hm), fun hm => absurd hm.2.1 hno⟩
          closed := fun _ hc => absurd hc hno
          above := fun nv' hm hnv' => absurd hnv' (hawait.untold nv' hm) },
            hpledged, fun _ _ hn => (by cases hn), hs.votes.v, hsince⟩
      · exact ⟨⟨⟨hvinv _ (fun _ _ => hpnv.trans h1) ⟨x, hx, hk⟩, fun n hn => hn⟩,
          hawait, hpledged, hs.votes.v, hsince⟩, fun _ => rfl⟩
    rw [hrest]
    have hrec1 : HRest cfg id H base (served s1 w) := ⟨hawait.toRecord, hpledges, hsince⟩
    refine Ensures.bind (Q := fun _ t => (∀ a, (op s.vi).1 = some a →
      HInv cfg id H (fun _ => False) none cfg.f nv base t) ∧ HRest cfg id H base t)
      (Reaches.modify_bind trivial ?_) fun _ t ht => Reaches.ofOption ht.2 fun a ha => ht.1 a ha
    change Ensures (perform h rest) (served s1 w) _ _
    cases ho : (op s.vi).1 with
    | some a =>
      exact (hentered (hk1 a ho)).imp (fun _ t ht => ⟨fun _ _ => ht, ht.rest⟩) fun _ h => h
    | none =>
      rcases hk2 ho with hex | hz
      · exact (hentered hex).imp (fun _ t ht => ⟨fun _ _ => ht, ht.rest⟩) fun _ h => h
      · exact (perform_hrest hh rest _ hfair (hpnv ▸ hz) hrec1).imp
          (fun _ t ht => ⟨nofun, ht⟩) fun _ h => h

/-- **`send_view_change`** to view `nv`. -/
theorem HInv.sendViewChange (hs : HInv cfg id H r none q v base s) (hlt : s.v < nv)
    (hheld : ∀ w, nv < w → s.vi.held cfg w ≤ cfg.f) :
    Ensures (sendViewChange cfg id h) { s with v := nv - 1 }
      (fun _ t => HInv cfg id H (fun _ => False) none cfg.f nv base t) (HRest cfg id H base) := by
  have hstart :
    HLeaving cfg id H nv (fun _ => False) base { s with v := nv - 1 + 1, limbo := true } := by
    have hv : nv - 1 + 1 = nv := Int.sub_add_cancel nv 1
    have hle : s.v ≤ nv - 1 + 1 := by omega
    refine ⟨⟨hs.votes.agreed, hs.votes.vi, hs.votes.outs,
      hv, by rw [hs.votes.viV]; exact hlt, hheld, by rw [hs.votes.viV]; exact hs.votes.past,
      fun _ hn => hn.elim⟩, ?_, fun hu => (hs.pledged hu).toPledges.of_eq rfl rfl,
        fun hu => (hs.pledged hu).locked.leave (by omega) rfl rfl rfl,
      hs.since.keep rfl rfl rfl hle le_rfl⟩
    exact {
      toRecord := hs.honest.toRecord.of_eq rfl rfl rfl
      vi := hs.honest.vi.later hle
      certs :=
        fun k => (hs.honest.certs k).mono (fun _ h => h) fun m hm => ⟨hm.1.trans hle, fun he => by
        have := hm.1
        have he : m.view = nv - 1 + 1 := he
        omega⟩
      views := fun c hc => (hs.honest.views c hc).trans hle
      newViews := fun nv' hm => (hs.honest.newViews nv' hm).trans hle
      fresh := fun c hc he => by
        have := hs.honest.views c hc
        have he : c.1.view = nv - 1 + 1 := he
        omega
      untold := fun nv' hm he => by
        have := hs.honest.newViews nv' hm
        have he : nv'.v = nv - 1 + 1 := he
        omega }
  refine Reaches.modify_bind trivial (Ensures.bind (apart_hleaving (rollback_apart cfg) hstart)
    fun _ t ht => ?_)
  have ht' : HLeaving cfg id H nv (fun _ => False) base { t with lastPrepared := t.lastExecuted } :=
    Apart.hleaving (s := t) (.of_eq rfl rfl rfl rfl rfl rfl rfl le_rfl rfl) ht
  refine Reaches.modify_bind trivial (Reaches.get_bind ?_)
  -- the loop over the window clears every slot
  set lo := t.lastStable + 1 with hlo
  refine Ensures.bind (Q := fun _ u => HLeaving cfg id H nv (fun _ => True) base u) ?_
    fun _ u hu => Reaches.get_bind (enterView_hinv hid hh hu _ _ _ _)
  refine Reaches.mono (Reaches.each (I := fun is u => HLeaving cfg id H nv
    (fun n => ∃ m, (lo ≤ m ∧ m < t.lastStable + cfg.P.maxOut + 1) ∧
      m ∉ is ∧ Log.slot cfg.P.maxOut n = Log.slot cfg.P.maxOut m) base u)
    (fun i is u hu => collect_hleaving hu ?_) _ _ ?_) fun _ u hu => ?_
  · rintro n ⟨m, hm, hmem, hslot⟩
    by_cases hi : m = i
    · exact .inr (hi ▸ hslot)
    · exact .inl ⟨m, hm, by simp [hi, hmem], hslot⟩
  · exact ht'.weaken fun n ⟨m, hm, hmem, _⟩ => absurd (mem_intRange.2 hm) hmem
  · refine hu.weaken fun n _ => ?_
    obtain ⟨m, h1, h2, h3⟩ := Log.exists_slot (l := ⟨lo, fun _ : Nat => ()⟩) cfg.P.maxOut_pos n
    have h2 : m < lo + cfg.P.maxOut := h2
    exact ⟨m, ⟨h1, by omega⟩, List.not_mem_nil, h3.symm⟩

end Views

/-! ## The end of a state transfer -/

section Events

variable (hid : id < cfg.n) (hn : cfg.n ≤ 256)

include hid hn

theorem adoptState_hkeeps (c : Int) : HKeeps cfg id H r none q v base (adoptState cfg id c) := by
  have hh : HServes cfg id H (calls cfg id) := calls_hserves hid hn
  refine apart_modify (fun _ => .of_eq rfl rfl rfl rfl rfl rfl rfl le_rfl rfl)
    (.bind (updateMaxRec_hkeeps hid hh) fun _ => ?_)
  refine apart_modify (fun _ => .of_eq rfl rfl rfl rfl rfl rfl rfl le_rfl rfl) (.get_bind
    fun s => .bind (.when fun _ => ?_) fun _ => ?_)
  · exact .bind (apart_hkeeps (haveCkpt_apart cfg _)) fun have' => markStable_hkeeps hid hh _ _ _
  · exact apart_hkeeps (sendFetched_apart cfg c)

theorem newState_hkeeps (c : Int) : HKeeps cfg id H r none q v base (newState cfg id c) := by
  have hh : HServes cfg id H (calls cfg id) := calls_hserves hid hn
  refine apart_modify (fun _ => .of_eq rfl rfl rfl rfl rfl rfl rfl le_rfl rfl) (.get_bind
    fun s => .bind (.when fun _ => ?_) fun _ => ?_)
  · exact adoptState_hkeeps hid hn c
  refine .get_bind fun s => .assert_bind (fun _ hs => hs.rest)
    fun _ => .bind (.when fun _ => ?_) fun _ => ?_
  · exact markStable_hkeeps hid hh _ _ _
  refine apart_modify (fun s => .of_eq rfl rfl rfl rfl rfl rfl rfl ?_ rfl)
    (.bind (executeCommitted_hkeeps hid hh) fun _ => .get_bind fun s =>
    .when fun _ => ?_)
  · change s.seqno ≤ if s.seqno < c then c else s.seqno
    split <;> omega
  · exact sendPrePrepare_hkeeps

theorem handleFetched_hkeeps (c : Int) (mem : Mem) (lm : Nat → Int) :
    HKeeps cfg id H r none q v base (handleFetched cfg id c mem lm) :=
  .get_bind fun _ => .when fun _ => .bind (apart_hkeeps (onState_apart _))
    fun _ => newState_hkeeps hid hn c

/-! ## Status messages -/

omit hid hn in
/-- A pre-prepare of the log goes to a replica that has reached the view. -/
theorem Logged.retransmitted {m : PrePrepareMsg} {k : Nat} (hm : Logged cfg id s m)
    (hk : H.reached k s.v) :
    Retransmitted cfg id H s (some k) (.prePrepare m) := fun hp => by
  rcases eq_or_lt_of_le hm.1 with hv | hv
  · exact .inl (hm.2 hv (hv ▸ hp))
  · exact .inr ⟨k, rfl, H.earlier k s.v _ (Int.add_one_le_of_lt hv) hk⟩

omit hid hn in
theorem emitOpt_hinv (hs : HInv cfg id H r none q v base s) {dest : Option Nat} {m : Option Msg}
    (hm : ∀ x, m = some x → Retransmitted cfg id H s dest x) :
    Ensures (emitOpt dest m) s (fun _ t => HInv cfg id H r none q v base t)
      (HRest cfg id H base) := by
  cases m with
  | none => exact Reaches.pure hs
  | some x => exact Reaches.modify trivial (hs.send (hm x rfl))

omit hid hn in
/-- The own prepare that a certificate keeps was sent to all. -/
theorem retransmitVote_hkeeps {dest : Nat} (hd : H.reached dest v) (n : Int) :
    HKeeps cfg id H r none q v base (retransmitVote cfg id dest n) := by
  intro s hs
  refine fetchP_bind hs.rest fun pc hpc _ => Reaches.get_bind (emitOpt_hinv hs fun x hx => ?_)
  subst hpc
  have hcert := hs.honest.certs (Log.slot cfg.P.maxOut n)
  split at hx
  · obtain ⟨m, hm, rfl⟩ := Option.map_eq_some_iff.1 hx
    unfold PreparedCert.myPrePrepare at hm
    split at hm
    · exact (hcert.1 m hm).retransmitted (hs.v ▸ hd)
    · cases hm
  · obtain ⟨p, hp, rfl⟩ := Option.map_eq_some_iff.1 hx
    exact ⟨dest, rfl, .inl (hcert.mine hp)⟩

omit hid hn in
theorem retransmitNormal_hkeeps {m : StatusMsg} (hm : H.reached m.id v) (n : Int) :
    HKeeps cfg id H r none q v base (retransmitNormal cfg id m n) := by
  refine .when fun _ s hs => fetchC_bind hs.rest
    fun cc hcc hw => Ensures.bind (emitOpt_hinv hs fun x hx => ?_) fun _ t ht =>
    (Holds.when fun _ => retransmitVote_hkeeps hm n) t ht
  obtain ⟨c, hc, rfl⟩ := Option.map_eq_some_iff.1 hx
  -- the own commit was sent to all
  refine ⟨m.id, rfl, fun hu => ?_⟩
  have hlocked := (hs.pledged hu).locked
  subst hcc
  exact hlocked.mine_sent (hlocked.window.symm.trans hw) hc

omit hid hn in
/-- What a status message asks for is found in the log, or among the requests of earlier views. -/
theorem findPps_hinv (hs : HInv cfg id H r none q v base s) (m : StatusMsg) (w n : Int) :
    Ensures (findPps cfg id m w n) s (fun o t => t = s ∧ ∀ pp,
        o = some pp → Logged cfg id s pp) (HRest cfg id H base) := by
  refine Reaches.get_bind (Reaches.ite (fun _ => Reaches.ofOption hs.rest
    fun o ho => ⟨rfl, fun pp hpp => ?_⟩) fun _ => ?_)
  · subst hpp
    have hlt := hs.honest.vi.since ho
    exact ⟨hlt.le, fun he => absurd he hlt.ne⟩
  · refine Reaches.ite (fun _ => fetchP_bind hs.rest
      fun pc hpc _ => Reaches.pure ⟨rfl, fun pp hpp => ?_⟩) fun _ => Reaches.pure ⟨rfl, nofun⟩
    subst hpc
    exact (hs.honest.certs (Log.slot cfg.P.maxOut n)).1 pp hpp

/-- The proofs are for views that the sender of `m` has left. -/
theorem retransmitPps_hkeeps {m : StatusMsg} (hm : H.reached m.id v) (pp : Int × Int × Bool) :
    HKeeps cfg id H r none q v base (retransmitPps cfg id m pp) := by
  have hh : HServes cfg id H (calls cfg id) := calls_hserves hid hn
  intro t ht
  refine Ensures.bind (findPps_hinv ht m _ _) fun found t' hfound => ?_
  obtain ⟨rfl, hfound⟩ := hfound
  refine Ensures.bind (emitOpt_hinv ht fun x hx => ?_)
    fun _ s hs => Reaches.when (fun _ => ?_) fun _ => hs
  · obtain ⟨c, hc, rfl⟩ := Option.map_eq_some_iff.1 hx
    exact (hfound c hc).retransmitted (ht.v ▸ hm)
  · refine (onVi_hinv hh hid (A := True) (b := fun _ => q)
      hs (ViewInfo.sendProofs_keeps hs.votes.vi _ _ _) ?_ fun hk x hx => ?_).imp
      (fun _ t ht => ht.1) fun _ h => h
    · exact (ViewInfo.sendProofs_source H.earlier hs.honest.vi _ _ (by rw [hs.v]; exact hm)).own
    · exact (hk.held trivial x (by rw [hs.votes.viV]; exact hx)).trans (hs.votes.held x hx)

/-- The new-view message that the primary sends again was announced. -/
theorem retransmitView_hkeeps {m : StatusMsg} (hm : H.reached m.id v) :
    HKeeps cfg id H r none q v base (retransmitView cfg id m) := by
  intro s hs
  refine Reaches.get_bind
    (Ensures.bind (Q := fun _ t => HInv cfg id H r none q v base t ∧ Grows s t) ?_ fun _ t ht => ?_)
  · refine Reaches.when (fun _ => Reaches.ofOption_bind hs.rest fun vc _ => ?_) fun _ => ⟨hs, .refl⟩
    refine (apart_ensures (emit_apart (m := .viewChange vc) trivial) s).imp
      (fun _ t ht => ⟨ht.hinv hs, ht.grows⟩) fun t ht => ht.hrest hs.rest
  refine Reaches.ite (fun _ => Reaches.when (fun hown => ?_) fun _ => ht.1) fun _ => ?_
  · simp only [isPrimary, Bool.and_eq_true, beq_iff_eq] at hown
    obtain ⟨hp, hnew⟩ := hown
    cases hnv : (s.vi.lastNvs id).nv with
    | none => exact Reaches.pure ht.1
    | some nv =>
      have hcomp : (s.vi.lastNvs id).isComplete = true := hp ▸ hnew
      obtain ⟨hv, -, -⟩ := current_of_complete hid hs.votes.vi hcomp
      rw [hs.votes.viV] at hv
      have hnvv := ((hs.honest.vi.nvs id).own (by rw [hv]; exact hp) nv hnv).1
      have htold := (hs.honest.told nv (hnvv.trans hv)).2 ⟨hp, hnew, hnv⟩
      have hout : Retransmitted cfg id H t (some m.id) (.newView nv) := ht.2.sent _ htold
      exact Reaches.modify trivial (ht.1.send hout)
  · have hrest : HKeeps cfg id H r none q v base (do
        when (!(s.isPrimary cfg id && s.vi.hasNewView cfg s.v))
          (each (retransmitAck m) (List.range cfg.n))
        each (retransmitPps cfg id m) m.pps) :=
      .bind (.when fun _ => .each (fun i => apart_hkeeps (retransmitAck_apart m i)) _)
        fun _ => .each (fun pp => retransmitPps_hkeeps hid hn hm pp) _
    exact hrest t ht.1

theorem handleStatus_hkeeps {m : StatusMsg} {verify : Bool}
    (hm : verify = true → m.id ≠ id → H.reached m.id m.view) :
    HKeeps cfg id H r none q v base (handleStatus cfg id m verify) := by
  refine .get_bind fun s => .when fun hne => .ite (fun hver => .ite (fun _ => ?_) fun _ => ?_)
    fun _ => apart_hkeeps (emit_apart trivial)
  · refine .bind (apart_hkeeps (fetchE_apart cfg _))
      fun e => .ofOption_bind (fun _ hs => hs.rest) fun c => ?_
    exact .assert_bind (fun _ hs => hs.rest) fun _ => apart_hkeeps (emit_apart trivial)
  · have hm := hm hver (by simpa using hne)
    intro t ht
    have hview : (m.view == t.v) = true → m.view = v := fun hv => by
      rw [← ht.v]
      simpa using hv
    refine Reaches.get_bind (Ensures.bind ((Holds.each
      (fun n => apart_hkeeps (retransmitCkpt_apart cfg _ n)) _) t ht) fun _ u hu => ?_)
    refine Reaches.ite (fun _ => ?_) fun _ =>
      Reaches.when (fun hv => Reaches.ite (fun _ => ?_) fun _ => ?_) fun _ => hu
    · refine apart_hkeeps (emitOpt_apart fun x hx => ?_) u hu
      obtain ⟨c, -, rfl⟩ := Option.map_eq_some_iff.1 hx
      trivial
    · exact (Holds.each (fun n => retransmitNormal_hkeeps (hview hv ▸ hm) n) _) u hu
    · exact retransmitView_hkeeps hid hn (hview hv ▸ hm) u hu

/-! ## Events -/

/-- The next view. -/
theorem nextView_hinv (hs : HInv cfg id H (fun _ => False) none cfg.f v base s) :
    Ensures (Replica.sendViewChange cfg id (calls cfg id)) s (fun _ t =>
        HInv cfg id H (fun _ => False) none cfg.f (v + 1) base t) (HRest cfg id H base) := by
  have hlt : s.v < v + 1 := by
    rw [hs.v]
    exact Int.lt_succ v
  have := hs.sendViewChange hid (calls_hserves hid hn) hlt fun w hw => hs.votes.held w (by omega)
  rw [show v + 1 - 1 = s.v by rw [hs.v]; omega] at this
  exact this

/-- Between two events. -/
abbrev HBetween (cfg : Cfg) (id : Nat) (H : Heard) (base s : Replica) : Prop :=
  ∃ v, HInv cfg id H (fun _ => False) none cfg.f v base s

theorem handleViewChange_hinv (hs : HBetween cfg id H base s) {m : ViewChange} {verified : Bool}
    (digestOk : Bool) (hver : verified = true → m.id ≠ id ∧ 0 < m.v) (hm : H.viewChange m) :
    Ensures (handleViewChange cfg id m verified digestOk)
      s (fun _ t => HBetween cfg id H base t) (HRest cfg id H base) := by
  obtain ⟨v, hs⟩ := hs
  refine Reaches.get_bind (Ensures.bind (Q := fun _ t => HBetween cfg id H base t)
    (Reaches.when (fun _ => (nextView_hinv hid hn hs).imp (fun _ t ht => ⟨_, ht⟩) fun _ h => h)
      fun _ => ⟨v, hs⟩) ?_)
  rintro _ t ⟨v, ht⟩
  -- one more view-change may be kept, until the replica joins its view
  have hcalm : ∀ w, t.vi.v < w → t.vi.held cfg w ≤ cfg.f :=
    fun w hw => ht.votes.held w (ht.votes.viV ▸ hw)
  let bound : Option Bool → Nat := fun o => if o = some false then cfg.f else cfg.f + 1
  have hq : ViewInfo.Kept cfg id True False t.vi
    (ViewInfo.addViewChange cfg id m verified digestOk t.vi).2 → ∀ w, t.v < w →
      (ViewInfo.addViewChange cfg id m verified digestOk t.vi).2.held cfg w ≤
        bound (ViewInfo.addViewChange cfg id m verified digestOk t.vi).1 := by
    intro hk w hw
    have hw : t.vi.v < w := ht.votes.viV ▸ hw
    simp only [bound]
    split
    · rename_i ho
      exact ((ViewInfo.addViewChange_false m verified digestOk).result.1
        false ho rfl w).trans (hcalm w hw)
    · exact hk.ok.inv.few w (hk.v ▸ hw)
  have hsrc :=
    ViewInfo.addViewChange_source ht.honest.vi (show Known H t m from .inl hm) digestOk fun hv => by
    have := (hver hv).2
    omega
  refine Ensures.bind (onVi_hinv (calls_hserves hid hn) hid (b := bound) ht
    (ViewInfo.addViewChange_keeps (K := True) (A := False)
      (fun h => h) hid ht.votes.vi hcalm (by rw [ht.votes.outs]; rfl) digestOk hver)
    hsrc.own hq) ?_
  rintro modified u ⟨hu, -⟩
  refine Reaches.when (fun hmod => Reaches.get_bind (Reaches.ite (fun hlt => ?_) fun hle => ?_))
    fun hmod => ?_
  · refine Reaches.modify_bind trivial ((hu.sendViewChange hid (calls_hserves hid hn) hlt
      fun w hw => ?_).imp (fun _ t ht => ⟨_, ht⟩) fun _ h => h)
    exact ViewInfo.held_le_of_maxView hu.votes.vi.inv (by rw [hu.votes.viV]; omega) hw
  · have hrest : HInv cfg id H (fun _ => False) none cfg.f v base u :=
      ⟨{ hu.votes with
        held := fun w hw => ViewInfo.held_le_of_maxView hu.votes.vi.inv (hu.votes.viV ▸ hw) (by
          omega) },
        hu.honest, hu.pledged, hu.ready, hu.v, hu.since⟩
    refine Reaches.when (fun _ => Reaches.assert_bind hrest.rest
      fun _ => Reaches.when (fun _ => ?_) fun _ => ⟨v, hrest⟩) fun _ => ⟨v, hrest⟩
    exact Reaches.modify trivial ⟨v, hrest.of_eq rfl rfl rfl rfl rfl rfl le_rfl rfl⟩
  · rw [hmod] at hu
    exact ⟨v, hu⟩

theorem handleNewView_hinv (hs : HInv cfg id H (fun _ => False) none cfg.f v base s) {m : NewView}
    {verified : Bool} (hver : verified = true → m.id cfg ≠ id ∧ 0 < m.v)
    (hd : verified = true → m.id cfg = cfg.primary s.v →
      (s.vi.lastNvs (m.id cfg)).v < m.v → s.vi.hasNewView cfg s.v = false)
    (hm : verified = true → H.newView m) :
    Ensures (handleNewView cfg id m verified) s (fun _ t =>
        HInv cfg id H (fun _ => False) none cfg.f v base t) (HRest cfg id H base) := by
  refine (onVi_hinv (calls_hserves hid hn) hid (A := True) (b := fun _ => cfg.f) hs
    (ViewInfo.addNewView_keeps hid hs.votes.vi (by rw [hs.votes.outs]; rfl) hver
      fun _ hv hp hlt => ?_) ?_ fun hk x hx => ?_).imp
    (fun _ t ht => ht.1) fun _ h => h
  · rw [hs.votes.viV] at hp ⊢
    exact hd hv hp hlt
  · exact ViewInfo.addNewView_source hs.honest.vi hs.votes.outs
      fun hv => ⟨(hver hv).2, (hver hv).1, hm hv⟩
  · exact (hk.held trivial x (by rw [hs.votes.viV]; exact hx)).trans (hs.votes.held x hx)

omit hid hn in
/-- What the event brings was heard. -/
def Hears (cfg : Cfg) (id : Nat) (H : Heard) (s : Replica) : Event → Prop
  | .prePrepare m nrc _ _ => nrc = true → cfg.primary m.view ≠ id → m.view = s.v → H.prePrepare m
  | .prepare m verify => verify = true → m.id ≠ id → m.view = s.v → H.prepare m
  | .commit m verify => verify = true → m.id ≠ id → m.view = s.v → H.commit m
  | .status m verify => verify = true → m.id ≠ id → H.reached m.id m.view
  | .viewChange m _ _ => H.viewChange m
  | .newView m verified => verified = true → m.id cfg ≠ id → H.newView m
  | _ => True

theorem handle_hinv (hs : HInv cfg id H (fun _ => False) none cfg.f v base s) (e : Event)
    (hd : s.remembers cfg id e = true) (hH : s.Hears cfg id H e) :
    Ensures (handle cfg id e) s (fun _ t => HBetween cfg id H base t) (HRest cfg id H base) := by
  have hh : HServes cfg id H (calls cfg id) := calls_hserves hid hn
  have hr : ∀ n : Int, ¬(fun _ : Int => False) n := fun _ h => h
  have hstay : ∀ {x : Prog Replica Unit}, Ensures x s
    (fun _ t => HInv cfg id H (fun _ => False) none cfg.f v base t) (HRest cfg id H base) →
      Ensures x s (fun _ t => HBetween cfg id H base t) (HRest cfg id H base) :=
        fun hx => hx.imp (fun _ t ht => ⟨v, ht⟩) fun _ h => h
  have hkeep : ∀ {x : Prog Replica Unit}, HKeeps cfg id H (fun _ => False) none cfg.f v base x →
      Ensures x s (fun _ t => HBetween cfg id H base t) (HRest cfg id H base) :=
        fun hx => hstay (hx s hs)
  cases e with
  | prePrepare m nrc reqsOk digestOk =>
    refine hstay (handlePrePrepare_hinv hid hh digestOk hs hr (fun hv hnew hlow => ?_)
      fun hnrc hv => ?_)
    · simpa [remembers, hv, hnew, Int.not_le.2 hlow] using hd
    · simp only [Bool.and_eq_true, bne_iff_ne] at hnrc
      exact ⟨hnrc.2, hH hnrc.1 hnrc.2 hv⟩
  | prepare m verify =>
    refine hstay (handlePrepare_hinv hid hh hs hr fun hver hne hv => ?_)
    simp only [Bool.and_eq_true] at hver
    exact hH hver.1 hne hv
  | commit m verify =>
    refine hstay (handleCommit_hinv hid hh hs fun hver hne hv => ?_)
    simp only [Bool.and_eq_true] at hver
    exact hH hver.1 hne hv
  | checkpoint m verify old => exact hkeep (handleCheckpoint_hkeeps hid hh m _ old)
  | status m verify => exact hkeep (handleStatus_hkeeps hid hn hH)
  | viewChange m verified digestOk =>
    refine handleViewChange_hinv hid hn ⟨v, hs⟩ digestOk (fun hver => ?_) hH
    simp only [ViewChange.wellFormed, Bool.and_eq_true, decide_eq_true_eq, bne_iff_ne] at hver
    exact ⟨hver.2, hver.1.2.1.2.2.1⟩
  | newView m verified =>
    refine hstay (handleNewView_hinv hid hn hs (fun hver => ?_) (fun hver hp hlt => ?_)
      fun hver => ?_)
    · simp only [NewView.wellFormed, Bool.and_eq_true, decide_eq_true_eq, bne_iff_ne] at hver
      exact ⟨hver.2, hver.1.2.1.1⟩
    · simp only [remembers, hver, Bool.not_true, Bool.false_or,
        Bool.or_eq_true, bne_iff_ne, decide_eq_true_eq,
        Bool.not_eq_true'] at hd
      exact hd.resolve_left fun h => h.elim (fun hne => hne hp) fun hle => by omega
    · simp only [Bool.and_eq_true, bne_iff_ne] at hver
      exact hH hver.1.1 hver.2
  | ack m verified =>
    exact hkeep (onVi_hkeeps hh hid (fun hw _ => ViewInfo.addAck_keeps hid hw m _)
      fun hs => ViewInfo.addAck_source hs m _)
  | request x => exact hkeep (handleRequest_hkeeps x)
  | fetched c mem lm => exact hkeep (handleFetched_hkeeps hid hn c mem lm)
  | viewTimer =>
    exact Reaches.get_bind (Reaches.when (fun _ =>
      (nextView_hinv hid hn hs).imp (fun _ t ht => ⟨_, ht⟩) fun _ h => h) fun _ => ⟨v, hs⟩)
  | statusTimer => exact hkeep (apart_hkeeps (sendStatus_apart cfg))
  | nullTimer => exact hkeep (.get_bind fun _ => .when fun _ => sendNull_hkeeps)
  | newKey => exact hkeep (sendNewKey_hkeeps hid hh)

end Events

/-! ## Hearing more -/

section Hearing

variable {H' : Heard} (hle : H.Le H')

include hle

theorem Known.heard {vc : ViewChange} (h : Known H s vc) : Known H' s vc :=
  h.imp (hle.viewChange vc) fun h => h

theorem Motive.heard {p : Prepare} : Motive cfg H s p → Motive cfg H' s p
  | .inl ⟨m, hm, h⟩ => .inl ⟨m, hle.prePrepare m hm, h⟩
  | .inr ⟨nv, hnv, hv, hp⟩ => .inr ⟨nv, hle.newView nv hnv, hv, hp.mono fun _ => Known.heard hle⟩

theorem Voter.hear {votes : List Prepare} {p : Prepare} (h : Voter cfg id H votes p) :
    Voter cfg id H' votes p :=
  ⟨h.lt, h.backup, h.own, fun hne => hle.prepare p (h.heard hne)⟩

theorem Backed.heard {votes : List Prepare} {w m : Int} {d : Digest} :
    Backed cfg id H votes w m d → Backed cfg id H' votes w m d :=
  fun ⟨L, h1, h2, h3, h4⟩ => ⟨L, h1, h2, h3, fun p hp => ⟨(h4 p hp).1.hear hle, (h4 p hp).2⟩⟩

theorem Ledgered.heard {votes : List Prepare} {pps : PrePrepareMsg → Prop} {c : PreparedCert} :
    Ledgered cfg id H votes pps c → Ledgered cfg id H' votes pps c :=
  fun h => ⟨h.1, h.2.mono fun _ hp => hp.hear hle⟩

theorem Record.heard (h : Record cfg id H s) : Record cfg id H' s where
  agreed := h.agreed
  motive p hp := by
    obtain ⟨h1, h2, h3⟩ := h.motive p hp
    exact ⟨h1, h2, h3.heard hle⟩
  proofs k p hp := (h.proofs k p hp).imp (fun h => h) fun h => ⟨h.1, hle.reached k _ h.2⟩
  issued dest m hm hp :=
    (h.issued dest m hm hp).imp (fun h => h) fun ⟨k, hk, hr⟩ => ⟨k, hk, hle.reached k _ hr⟩
  news := h.news
  once := h.once
  picked c hc nv hnv hv hlo hhi := (h.picked c hc nv hnv hv hlo hhi).mono fun _ => Known.heard hle
  committed pp hpp := (h.committed pp hpp).heard hle

theorem Pledges.heard (h : Pledges cfg id H s) : Pledges cfg id H' s where
  commits c hc := by
    obtain ⟨hid, d, hd⟩ := h.commits c hc
    exact ⟨hid, d, hd.heard hle⟩
  resent := h.resent
  certified pp hpp := (h.certified pp hpp).hear hle.commit

theorem Honest.heard (h : Honest cfg id H s) : Honest cfg id H' s :=
  { h with
    toRecord := h.toRecord.heard hle
    vi := h.vi.mono (fun _ => Known.heard hle) hle.newView hle.reached
    certs := fun k => (h.certs k).heard hle }

end Hearing

/-! ## Runs -/

/-- Between the events of a run. -/
structure HRun (cfg : Cfg) (id : Nat) (H : Heard) (s : Replica) : Prop where
  record : Record cfg id H s
  pledges : s.Unwrapped → Pledges cfg id H s
  running : s.halted = false → VInv cfg id (fun _ => False) cfg.f s ∧
    Honest cfg id H s ∧ (s.Unwrapped → Locked cfg id H.commit s)

theorem HRun.heard {H' : Heard} (hle : H.Le H') (h : HRun cfg id H s) : HRun cfg id H' s :=
  ⟨h.record.heard hle, fun hu => (h.pledges hu).heard hle, fun hh =>
    have ⟨hv, ho, hl⟩ := h.running hh
    ⟨hv, ho.heard hle, fun hu => (hl hu).hear hle.commit⟩⟩

theorem hrun_new (mem : Mem) : HRun cfg id H (new cfg id mem) := by
  have hrec : Record cfg id H (new cfg id mem) := by
    refine ⟨(vinv_new mem).agreed, ?_, ?_, ?_, ?_, ?_, ?_, ?_⟩ <;> simp [new, Replica.votes]
  refine ⟨hrec, fun _ => by constructor <;> simp [new],
    fun _ => ⟨vinv_new mem, ?_, fun _ => locked_new mem⟩⟩
  exact {
    toRecord := hrec
    vi := {
      nvs := fun _ => NVInfo.sourced_clear (s := NVInfo.new) rfl
      idle := fun _ => rfl
      vcs := fun _ _ h => by cases h
      past := fun _ => OReqInfo.past_new cfg.f le_rfl
      outs := fun _ h => (List.not_mem_nil h).elim
      nonneg := le_rfl }
    certs := fun _ => ledgered_new
    views := by simp [new]
    newViews := by simp [new]
    fresh := fun h => absurd rfl h
    told := fun nv _ => by simp [new, ViewInfo.new, NVInfo.new]
    closed := fun _ h => by cases h
    above := by simp [new] }

/-- **One event** keeps what the votes rest on, and nothing that has happened gets lost. -/
theorem step_hrun (hid : id < cfg.n) (hn : cfg.n ≤ 256) (hs : HRun cfg id H s) (e : Oracle × Event)
    (hd : s.halted = false → s.remembers cfg id e.2 = true)
    (hH : s.halted = false → s.Hears cfg id H e.2) :
    HRun cfg id H (step cfg id s e) ∧ Grows s (step cfg id s e) := by
  unfold step
  by_cases hh : s.halted = true
  · rw [if_pos hh]
    exact ⟨hs, .refl⟩
  rw [if_neg hh]
  have hh : s.halted = false := by simpa using hh
  obtain ⟨hv, ho, hl⟩ := hs.running hh
  have hinv : HInv cfg id H (fun _ => False) none cfg.f s.v s { s with oracle := e.1 } :=
    HInv.of_eq (s := s) ⟨hv, ho, fun hu => ⟨hs.pledges hu, hl hu⟩,
      fun _ _ hn => (by cases hn), rfl, .refl⟩ rfl rfl rfl rfl rfl rfl le_rfl rfl
  have hH' : Replica.Hears cfg id H { s with oracle := e.1 } e.2 := by
    have := hH hh
    cases he : e.2 <;> rw [he] at this <;> exact this
  obtain ⟨h1, h2⟩ := (handle_hinv hid hn hinv e.2 (hd hh) hH').result
  cases hr : handle cfg id e.2 { s with oracle := e.1 } with
  | mk o t =>
    rw [hr] at h1 h2
    cases o with
    | some a =>
      obtain ⟨v, ht⟩ := h1 a rfl
      exact ⟨⟨ht.honest.toRecord, ht.rest.pledges,
        fun _ => ⟨ht.votes, ht.honest, fun hu => (ht.pledged hu).locked⟩⟩, ht.since⟩
    | none =>
      have ht := h2 rfl
      have hstop : HRest cfg id H s { t with halted := true } := ht.of_eq rfl rfl rfl rfl rfl rfl
      exact ⟨⟨hstop.record, hstop.pledges, nofun⟩, hstop.since⟩

/-! ## One replica -/

/-- What the events of a run bring, where it verifies. -/
def heardIn (es : List (Oracle × Event)) : Heard where
  prepare p := ∃ o, (o, .prepare p true) ∈ es
  commit c := ∃ o, (o, .commit c true) ∈ es
  prePrepare m := ∃ o reqsOk digestOk, (o, .prePrepare m true reqsOk digestOk) ∈ es
  newView nv := ∃ o, (o, .newView nv true) ∈ es
  viewChange vc := ∃ o verified digestOk, (o, .viewChange vc verified digestOk) ∈ es
  reached _ _ := True
  earlier _ _ _ _ _ := trivial

theorem hears_heardIn {es : List (Oracle × Event)} {e : Oracle × Event} (he : e ∈ es) :
    s.Hears cfg id (heardIn es) e.2 := by
  obtain ⟨o, e⟩ := e
  cases e with
  | prePrepare m nrc reqsOk digestOk => exact fun hnrc _ _ => ⟨o, reqsOk, digestOk, hnrc ▸ he⟩
  | prepare m verify => exact fun hver _ _ => ⟨o, hver ▸ he⟩
  | commit m verify => exact fun hver _ _ => ⟨o, hver ▸ he⟩
  | viewChange m verified digestOk => exact ⟨o, verified, digestOk, he⟩
  | newView m verified => exact fun hver _ => ⟨o, hver ▸ he⟩
  | status m verify => exact fun _ _ => trivial
  | _ => trivial

/-- A run in which nothing that the replica voted for is forgotten. -/
theorem run_hrun (hid : id < cfg.n) (hn : cfg.n ≤ 256) (es : List (Oracle × Event))
    (hs : HRun cfg id H s) (hes : Remembering cfg id s es)
    (hH : ∀ e ∈ es, ∀ s : Replica, s.Hears cfg id H e.2) : HRun cfg id H (run cfg id s es) := by
  induction es generalizing s with
  | nil => exact hs
  | cons e es ih =>
    have h := step_hrun hid hn hs e hes.1 fun _ => hH e List.mem_cons_self s
    exact ih h.1 (hes.2 _ rfl) fun e' he' => hH e' (List.mem_cons_of_mem _ he')

theorem run_heard (hid : id < cfg.n) (hn : cfg.n ≤ 256) (mem : Mem) (es : List (Oracle × Event))
    (hes : Remembering cfg id (new cfg id mem) es) :
    HRun cfg id (heardIn es) (run cfg id (new cfg id mem) es) :=
  run_hrun hid hn es (hrun_new mem) hes fun _ he _ => hears_heardIn he

theorem run_record (hid : id < cfg.n) (hn : cfg.n ≤ 256) (mem : Mem) (es : List (Oracle × Event))
    (hes : Remembering cfg id (new cfg id mem) es) :
    Record cfg id (heardIn es) (run cfg id (new cfg id mem) es) :=
  (run_heard hid hn mem es hes).record

/-- **A primary announces one new view.** All new-view messages that a replica sends for a view are
one, which goes to all replicas. -/
theorem run_announces_once (hid : id < cfg.n) (hn : cfg.n ≤ 256) (mem : Mem)
    (es : List (Oracle × Event)) (hes : Remembering cfg id (new cfg id mem) es)
    (dest dest' : Option Nat)
    (nv nv' : NewView) (hnv : (dest, .newView nv) ∈ (run cfg id (new cfg id mem) es).sent)
    (hnv' : (dest', .newView nv') ∈ (run cfg id (new cfg id mem) es).sent) (hv : nv.v = nv'.v) :
    nv = nv' ∧ (none, .newView nv) ∈ (run cfg id (new cfg id mem) es).sent := by
  have hrec := run_record hid hn mem es hes
  have h := hrec.news dest nv hnv
  exact ⟨hrec.once nv nv' h (hrec.news dest' nv' hnv') hv, h⟩

/-- **What a primary creates in a new view** for a sequence number that its new-view message is
about is the request that the message picks, among the view-changes that the replica has received or
sent. -/
theorem run_creates_picked (hid : id < cfg.n) (hn : cfg.n ≤ 256) (mem : Mem)
    (es : List (Oracle × Event)) (hes : Remembering cfg id (new cfg id mem) es)
    (c : PrePrepareMsg × Int)
    (hc : c ∈ (run cfg id (new cfg id mem) es).created) (dest : Option Nat) (nv : NewView)
    (hnv : (dest, .newView nv) ∈ (run cfg id (new cfg id mem) es).sent) (hv : nv.v = c.1.view)
    (hlo : nv.min < c.1.seqno) (hhi : c.1.seqno < nv.max) :
    nv.Picks cfg (fun vc => (∃ o verified digestOk, (o, .viewChange vc verified digestOk) ∈ es) ∨
      (none, .viewChange vc) ∈ (run cfg id (new cfg id mem) es).sent) c.1.seqno c.1.digest := by
  have hrec := run_record hid hn mem es hes
  exact hrec.picked c hc nv (hrec.news dest nv hnv) hv hlo hhi

/-- The view-change of replica `i` for view 1, in which it has prepared sequence number 1. -/
def requestChange (i : Nat) : ViewChange := ⟨1, 0, i, [7, 0, 0], 1, 1, [1#64], [⟨0, 0, 2⟩]⟩

def ackChange (i j : Nat) : Event := .ack ⟨1, i, j, fourReplicas.vcDigest (requestChange j)⟩ true

/-- Replica 1 prepares a batch in view 0, and then becomes the primary. -/
def becomePrimary : List (Oracle × Event) :=
  [.prePrepare ⟨0, 1, 2, [1]⟩ true true true, .prepare ⟨0, 1, 2, 2, false⟩ true, .viewTimer,
    .viewChange (requestChange 0) true true, .viewChange (requestChange 2) true true,
      .viewChange (requestChange 3) true true,
    ackChange 2 0, ackChange 3 2, ackChange 0 3].map
      fun e => ({ Oracle.none with ckptAuth := fun _ => true }, e)

abbrev primaryOne : Replica := run fourReplicas 1 (new fourReplicas 1 fun _ => []) becomePrimary

theorem remembering_becomePrimary :
    Remembering fourReplicas 1 (new fourReplicas 1 fun _ => []) becomePrimary := by
  unfold Remembering
  decide +kernel

/-- The new-view messages that the replica has sent to all. -/
def announced (s : Replica) : List NewView := s.sent.filterMap fun
  | (none, .newView nv) => some nv
  | _ => none

theorem mem_announced {nv : NewView} (h : nv ∈ s.announced) : (none, .newView nv) ∈ s.sent := by
  obtain ⟨⟨dest, x⟩, hx, he⟩ := List.mem_filterMap.1 h
  cases dest with
  | some k => cases he
  | none =>
    cases x with
    | newView nv' =>
      cases he
      exact hx
    | _ => cases he

theorem announced_becomePrimary :
    ∃ nv : NewView, (none, .newView nv) ∈ primaryOne.sent ∧ nv.v = 1 ∧ nv.min = 0 ∧ nv.max = 2 := by
  have hlen : primaryOne.announced.length = 1 := by decide +kernel
  obtain ⟨nv, hnv⟩ := List.length_eq_one_iff.1 hlen
  have hv : primaryOne.announced.map (fun nv => (nv.v, nv.min, nv.max)) = [(1, 0, 2)] := by
    decide +kernel
  rw [hnv] at hv
  simp only [List.map_cons, List.map_nil, List.cons.injEq, Prod.mk.injEq, and_true] at hv
  exact ⟨nv, mem_announced (by rw [hnv]; exact List.mem_cons_self), hv⟩

theorem run_announces_once_one : ∃ nv : NewView, (none, .newView nv) ∈ primaryOne.sent ∧ nv.v = 1 ∧
    ∀ dest nv', (dest, .newView nv') ∈ primaryOne.sent → nv'.v = 1 → nv' = nv := by
  obtain ⟨nv, hnv, hv, -⟩ := announced_becomePrimary
  exact ⟨nv, hnv, hv, fun dest nv' hnv' hv' => (@run_announces_once
    fourReplicas 1 (by decide) (by decide) (fun _ => []) _ remembering_becomePrimary
    dest none nv' nv hnv' hnv (hv'.trans hv.symm)).1⟩

/-- The batch is created again in view 1, as a view-change of the message says. -/
theorem run_creates_picked_one : ∃ nv : NewView, nv.Picks fourReplicas
    (fun vc => (∃ o verified digestOk, (o, .viewChange vc verified digestOk) ∈ becomePrimary) ∨
        (none, .viewChange vc) ∈ primaryOne.sent) 1 2 := by
  obtain ⟨nv, hnv, h1, h2, h3⟩ := announced_becomePrimary
  have hc : ((⟨1, 1, 2, [1]⟩ : PrePrepareMsg), (0 : Int)) ∈ primaryOne.created := by decide +kernel
  exact ⟨nv, @run_creates_picked fourReplicas 1 (by decide)
    (by decide) (fun _ => []) _ remembering_becomePrimary ⟨⟨1, 1, 2, [1]⟩, 0⟩ hc none nv hnv h1
    (by rw [h2]; decide) (by rw [h3]; decide)⟩

/-- The prepares behind what the replica has prepared. -/
theorem Backed.arrived {es : List (Oracle × Event)} {w m : Int} {d : Digest}
    (h : Backed cfg id (heardIn es) s.votes w m d) :
    ∃ L : List Prepare, (L.map Prepare.id).Nodup ∧ 2 * cfg.f ≤ L.length ∧ 0 < L.length ∧ ∀ p ∈ L,
      p.id < cfg.n ∧ p.id ≠ cfg.primary p.view ∧ p.view = w ∧ p.seqno = m ∧ p.digest = d ∧
        ((none, .prepare p) ∈ s.sent ∨ ∃ o, (o, .prepare p true) ∈ es) := by
  obtain ⟨L, h1, h2, h3, h4⟩ := h
  refine ⟨L, h1, h2, h3, fun p hp => ?_⟩
  obtain ⟨hvoter, hv, hseq, hd⟩ := h4 p hp
  refine ⟨hvoter.lt, hvoter.backup, hv, hseq, hd, ?_⟩
  by_cases hpid : p.id = id
  · exact .inl (mem_votes.1 (hvoter.own hpid))
  · exact .inr (hvoter.heard hpid)

/-- **What a replica executes as committed** is backed by the prepares of `2f` distinct backups of
the view, which it has sent or which arrived with the authenticators of their senders. -/
theorem run_committed_backed (hid : id < cfg.n) (hn : cfg.n ≤ 256) (mem : Mem)
    (es : List (Oracle × Event)) (hes : Remembering cfg id (new cfg id mem) es) (m : PrePrepareMsg)
    (hm : m ∈ (run cfg id (new cfg id mem) es).committed) :
    ∃ L : List Prepare, (L.map Prepare.id).Nodup ∧ 2 * cfg.f ≤ L.length ∧ 0 < L.length ∧ ∀ p ∈ L,
      p.id < cfg.n ∧ p.id ≠ cfg.primary p.view ∧ p.view = m.view ∧
        p.seqno = m.seqno ∧ p.digest = m.digest ∧
        ((none, .prepare p) ∈ (run cfg id (new cfg id mem) es).sent ∨ ∃ o,
            (o, .prepare p true) ∈ es) := by
  exact ((run_record hid hn mem es hes).committed m hm).arrived

/-- Replica 1 prepares and commits a batch. -/
def commitFirst : List (Oracle × Event) :=
  [.prePrepare ⟨0, 1, 2, [1]⟩ true true true, .prepare ⟨0, 1, 2, 2, false⟩ true,
    .commit ⟨0, 1, 0⟩ true, .commit ⟨0, 1, 2⟩ true].map
    fun e => (Oracle.none, e)

theorem remembering_commitFirst :
    Remembering fourReplicas 1 (new fourReplicas 1 fun _ => []) commitFirst := by
  unfold Remembering
  decide +kernel

theorem run_committed_backed_first :
    (run fourReplicas 1 (new fourReplicas 1 fun _ => []) commitFirst).committed = [⟨0, 1, 2, [1]⟩] ∧
      ∃ L : List Prepare, (L.map Prepare.id).Nodup ∧ 2 ≤ L.length ∧ 0 < L.length ∧ ∀ p ∈ L,
        p.id < 4 ∧ p.id ≠ fourReplicas.primary p.view ∧ p.view = 0 ∧ p.seqno = 1 ∧ p.digest = 2 ∧
          ((none, .prepare p) ∈ (run fourReplicas 1 (new fourReplicas 1
                fun _ => []) commitFirst).sent ∨ ∃ o, (o, .prepare p true) ∈ commitFirst) := by
  exact ⟨by decide +kernel, @run_committed_backed fourReplicas
    1 (by decide) (by decide) (fun _ => []) _ remembering_commitFirst ⟨0, 1, 2, [1]⟩
    (by decide +kernel)⟩

/-- The commits that the replica has sent to all. -/
def commits (s : Replica) : List Commit := s.sent.filterMap fun
  | (none, .commit c) => some c
  | _ => none

/-- **What a replica executes as committed** has the commits of `2f + 1` distinct replicas for its
view and sequence number, which the replica has sent or which arrived with the authenticators of
their senders, as long as the window has not wrapped. -/
theorem run_committed_certified (hid : id < cfg.n) (hn : cfg.n ≤ 256) (mem : Mem)
    (es : List (Oracle × Event)) (hes : Remembering cfg id (new cfg id mem) es)
    (hhead : (run cfg id (new cfg id mem) es).plog.head < 2 ^ 31) (m : PrePrepareMsg)
    (hm : m ∈ (run cfg id (new cfg id mem) es).committed) :
    ∃ L : List Commit, (L.map Commit.id).Nodup ∧ 2 * cfg.f < L.length ∧ ∀ c ∈ L,
      c.id < cfg.n ∧ c.view = m.view ∧ c.seqno = m.seqno ∧
        ((none, .commit c) ∈ (run cfg id (new cfg id mem) es).sent ∨ ∃ o,
            (o, .commit c true) ∈ es) := by
  obtain ⟨L, h1, h2, h3⟩ := ((run_heard hid hn mem es hes).pledges hhead).certified m hm
  refine ⟨L, h1, h2, fun c hc => ?_⟩
  obtain ⟨hcommitter, hv, hseq⟩ := h3 c hc
  refine ⟨hcommitter.lt, hv, hseq, ?_⟩
  by_cases hcid : c.id = id
  · exact .inl (hcommitter.own hcid)
  · exact .inr (hcommitter.heard hcid)

theorem run_committed_certified_first :
    ∃ L : List Commit, (L.map Commit.id).Nodup ∧ 2 < L.length ∧ ∀ c ∈ L,
      c.id < 4 ∧ c.view = 0 ∧ c.seqno = 1 ∧
      ((none, .commit c) ∈ (run fourReplicas 1 (new fourReplicas 1 fun _ => []) commitFirst).sent ∨
          ∃ o, (o, .commit c true) ∈ commitFirst) :=
  @run_committed_certified fourReplicas 1 (by decide) (by decide)
    (fun _ => []) _ remembering_commitFirst (by decide +kernel) ⟨0, 1, 2, [1]⟩
    (by decide +kernel)

end Replica

end TinyBFT
