import TinyBFT.Handlers
import TinyBFT.Lib.Run

/-!
# The prepares that a replica multicasts

A replica multicasts prepares in `send_prepare` and in `process_new_view`. All that it knows of them
later is `mine()` of the certificate (`Replica.cc:574-575`: "Only accept message if we never
accepted another pre-prepare for the same view and sequence number"). `send_prepare` sends the
prepare before it asks `add_mine` to keep it, and `add_mine` refuses where another digest is the
correct value already. The certificate has the pre-prepare then and nothing else, and `mark_stale`
drops it. A new-view message for a later view of the same primary replaces the complete `NV_info` of
the current one, and after that `process_new_view` may come a second time. Without these two
(`Remembers`) no two prepares differ.
-/

namespace TinyBFT

theorem Certificate.addMine_refuses {T : Type} [CertMsg T] {E : Env}
    {cert cert' : Certificate T} {m : T} (h : cert.addMine E m = some (cert', false)) :
    ∃ cv, cert.cvalue = some cv ∧ CertMsg.matchMsg cv m = some false := by
  unfold addMine at h
  split at h
  · cases h
  simp only at h
  split at h
  · rename_i k hk
    simp only [Option.bind_eq_bind, Option.bind_eq_some_iff] at h
    obtain ⟨v, hv, b, hb, h⟩ := h
    refine ⟨v.m, by simp [cvalue, cval, hk, hv], ?_⟩
    cases b with
    | false => exact hb
    | true => cases h
  · simp only [Option.bind_eq_bind, Option.bind_eq_some_iff] at h
    obtain ⟨o, -, h⟩ := h
    cases o with
    | none => cases h
    | some i =>
      obtain ⟨v, -, h⟩ := Option.bind_eq_some_iff.1 h
      cases h

/-- Once there is a correct value, it stays the one, and so does the own message. -/
theorem Certificate.add_of_correct {T : Type} [CertMsg T] {E : Env} {cert cert' : Certificate T}
    {m : T} {verify b : Bool} {k : Nat} (h : cert.add E m verify = some (cert', b))
    (hk : cert.c = some k) : cert'.mym = cert.mym ∧ cert'.c = some k := by
  have hrefused : ∀ {r : Certificate T × Bool}, some (if verify then
    { cert with bmap := CertMsg.id m :: cert.bmap, c := some k } else cert, false) = some r →
      r.1.mym = cert.mym ∧ r.1.c = some k := by
    intro r hr
    obtain rfl := Option.some.inj hr
    cases verify
    · exact ⟨rfl, hk⟩
    · exact ⟨rfl, rfl⟩
  unfold add at h
  simp only [hk] at h
  split at h
  · cases h
    exact ⟨rfl, hk⟩
  simp only [Option.bind_eq_bind, Option.bind_eq_some_iff] at h
  obtain ⟨v, -, counts, -, h⟩ := h
  split at h
  · split at h
    · cases h
    · cases h
      exact ⟨rfl, rfl⟩
  · exact hrefused h

namespace PreparedCert

variable {E : Env} {c c' : PreparedCert} {m : PrePrepareMsg} {p : Prepare}

/-- An own prepare is in the correct value. -/
def Sane (c : PreparedCert) : Prop := c.pc.mym.isSome = true → c.pc.c.isSome = true

/-- No own prepare, and no correct value. -/
structure Blank (c : PreparedCert) : Prop where
  mym : c.pc.mym = none
  c : c.pc.c = none

theorem Blank.sane (h : Blank c) : Sane c := fun hm => by
  rw [h.mym] at hm
  cases hm

/-- The own prepare stays, and nothing becomes the correct value. -/
structure Calm (c c' : PreparedCert) : Prop where
  mym : c'.pc.mym = c.pc.mym
  sane : Sane c → Sane c'
  blank : Blank c → Blank c'

theorem Calm.refl : Calm c c := ⟨rfl, fun h => h, fun h => h⟩

theorem Calm.of_pc (h : c'.pc = c.pc) : Calm c c' :=
  ⟨by rw [h], fun hs hm => by rw [h] at hm ⊢; exact hs hm,
    fun hb => ⟨by rw [h]; exact hb.mym, by rw [h]; exact hb.c⟩⟩

theorem blank_clear : Blank c.clear := ⟨rfl, rfl⟩

theorem markStale_calm {isPrimary : Bool} (h : c.markStale isPrimary = some c') : Calm c c' := by
  rcases markStale_cases h with ⟨-, rfl⟩ | ⟨-, pc, hpc, rfl⟩
  · exact .refl
  rcases Certificate.markStale_cases hpc with ⟨-, rfl⟩ | ⟨-, ⟨m, hm, rfl⟩ | ⟨hm, rfl⟩⟩
  · exact .of_pc rfl
  · exact ⟨rfl, fun _ _ => rfl, fun hb => by rw [hb.mym] at hm; cases hm⟩
  · exact ⟨rfl, fun _ h => (by rw [show c.pc.mym = none from hm] at h; cases h), fun _ => ⟨hm, rfl⟩⟩

theorem addMinePrePrepare_calm (h : c.addMinePrePrepare E m = some c') : Calm c c' := by
  unfold addMinePrePrepare at h
  split at h
  · cases h
    exact .of_pc rfl
  · cases h

theorem addOld_calm (h : c.addOld m = some c') : Calm c c' := by
  unfold addOld at h
  split at h
  · cases h
    exact .of_pc rfl
  · cases h

/-- A prepare of another replica leaves the own one alone. -/
theorem add_sane {verify b : Bool} (h : c.add E p verify = some (c', b)) (hs : Sane c) :
    c'.pc.mym = c.pc.mym ∧ Sane c' := by
  obtain ⟨pc, hpc, rfl⟩ := add_cases h
  cases hc : c.pc.c with
  | some k =>
    obtain ⟨h1, h2⟩ := Certificate.add_of_correct hpc hc
    exact ⟨h1, fun _ => by rw [show pc.c = some k from h2]; rfl⟩
  | none =>
    have hm : c.pc.mym = none := by
      by_contra hne
      have := hs (Option.isSome_iff_ne_none.2 hne)
      rw [hc] at this
      cases this
    have hm' : pc.mym = none := by
      rcases Certificate.add_cases hpc with ⟨-, -, -, -,
        -, ⟨i, v, k, -, -, rfl, -⟩ | ⟨-, rfl⟩⟩ | ⟨-, rfl | rfl | rfl⟩
      exacts [hm, hm, hm, hm, rfl]
    exact ⟨hm'.trans hm.symm, fun h => by rw [show pc.mym = none from hm'] at h; cases h⟩

/-- `add_mine` keeps the prepare, where no other digest is the correct value. -/
theorem addMine_records {b : Bool} (h : c.addMine E p = some (c', b))
    (hd : ∀ cv, c.pc.cvalue = some cv → cv.digest = p.digest) :
    c'.pc.mym = some p ∧ Sane c' := by
  obtain ⟨-, pc, hpc, rfl⟩ := addMine_cases h
  obtain ⟨-, -, ⟨-, bmap, -, ⟨i, v, -, -, -, rfl⟩ | ⟨-, rfl⟩⟩ | ⟨rfl, -⟩⟩ :=
    Certificate.addMine_cases hpc
  · exact ⟨rfl, fun _ => rfl⟩
  · exact ⟨rfl, fun _ => rfl⟩
  · obtain ⟨cv, hcv, hmatch⟩ := Certificate.addMine_refuses hpc
    have hd := hd cv hcv
    simp [CertMsg.matchMsg, hd] at hmatch

theorem Blank.cvalue (h : Blank c) :
    c.pc.cvalue = none := by simp [Certificate.cvalue, Certificate.cval, h.c]

end PreparedCert

namespace Replica

open Prog (Ensures Reaches Within Composes Holds get modify assert ofOption when each)
open ViewInfo (pnvOuts)
open PreparedCert (Blank Calm Sane)

variable (cfg : Cfg) (id : Nat)

/-- The certificate of sequence number `n`. -/
def cert (s : Replica) (n : Int) : PreparedCert := s.plog.entry cfg.P.maxOut n

/-- No two prepares sent to all replicas have one view and sequence number and two digests. -/
def Agreed (s : Replica) : Prop :=
  ∀ p ∈ s.votes, ∀ p' ∈ s.votes, p.view = p'.view → p.seqno = p'.seqno → p.digest = p'.digest

/-- There is no prepare for `n` in the current view. -/
def Unvoted (s : Replica) (n : Int) : Prop := ∀ p ∈ s.votes, p.view = s.v → p.seqno ≠ n

/-- The certificates know the prepares of the current view. The sequence numbers in `r` are to be
voted for by `process_new_view`, and `q` bounds the view-changes that are held for a later view. -/
structure VInv (r : Int → Prop) (q : Nat) (s : Replica) : Prop where
  agreed : s.Agreed
  vi : ViewInfo.Ok cfg id s.vi
  outs : s.vi.outs = []
  viV : s.vi.v = s.v
  held : ∀ w, s.v < w → s.vi.held cfg w ≤ q
  past : ∀ p ∈ s.votes, p.view ≤ s.v
  sane : ∀ n, Sane (s.cert cfg n)
  kept : ∀ p ∈ s.votes, p.view = s.v → s.plog.head ≤ p.seqno →
    s.plog.withinRange cfg.P.maxOut p.seqno = true ∧ (s.cert cfg p.seqno).myPrepare = some p
  reserved : ∀ n, r n → s.vi.hasNewView cfg s.v = true ∧ s.Unvoted n ∧ Blank (s.cert cfg n)
  fresh : s.v ≠ 0 → s.vi.hasNewView cfg s.v = false → ∀ n, s.Unvoted n ∧ Blank (s.cert cfg n)

/-- A `process_new_view` is due. -/
structure VDue (r : Int → Prop) (q : Nat) (s : Replica) : Prop where
  inv : VInv cfg id (fun _ => True) q s
  none : ∀ n, ¬r n

variable {cfg id} {r : Int → Prop} {q : Nat} {s t u : Replica} {α : Type}
    {h : NVCall → Prog Replica Unit} {n : Int}

theorem mem_votes {p : Prepare} : p ∈ s.votes ↔ (none, .prepare p) ∈ s.sent := by
  simp only [votes, List.mem_filterMap]
  constructor
  · rintro ⟨⟨dest, m⟩, hmem, hv⟩
    cases dest with
    | some i => cases hv
    | none =>
      cases m with
      | prepare p' =>
        cases hv
        exact hmem
      | _ => cases hv
  · exact fun hmem => ⟨_, hmem, rfl⟩

/-- The certificates change as `Calm` says, and the rest that `VInv` depends on is the same. -/
structure Calmly (cfg : Cfg) (s t : Replica) : Prop where
  v : t.v = s.v
  vi : t.vi = s.vi
  votes : t.votes = s.votes
  head : t.plog.head = s.plog.head
  cert : ∀ n, Calm (s.cert cfg n) (t.cert cfg n)

theorem Aside.calmly (h : Aside s t) : Calmly cfg s t :=
  ⟨h.v, h.vi, h.votes, by rw [h.plog], fun n => by rw [cert, cert, h.plog]; exact .refl⟩

theorem withinRange_head {l l' : Log α} (h : l'.head = l.head) (size : Nat) (n : Int) :
    l'.withinRange size n = l.withinRange size n := by
  simp only [Log.withinRange, h]

theorem Calmly.inv (h : Calmly cfg s t) (hs : VInv cfg id r q s) : VInv cfg id r q t where
  agreed := by rw [Agreed, h.votes]; exact hs.agreed
  vi := by rw [h.vi]; exact hs.vi
  outs := by rw [h.vi]; exact hs.outs
  viV := by rw [h.vi, h.v]; exact hs.viV
  held := by rw [h.vi, h.v]; exact hs.held
  past := by rw [h.votes, h.v]; exact hs.past
  sane n := (h.cert n).sane (hs.sane n)
  kept := by
    rw [h.votes, h.v, h.head]
    intro p hp hv hn
    obtain ⟨h1, h2⟩ := hs.kept p hp hv hn
    exact ⟨by rw [withinRange_head h.head]; exact h1, ((h.cert _).mym).trans h2⟩
  reserved n hn := by
    obtain ⟨h1, h2, h3⟩ := hs.reserved n hn
    exact ⟨by rw [h.vi, h.v]; exact h1, by rw [Unvoted, h.votes, h.v]; exact h2,
      (h.cert n).blank h3⟩
  fresh := by
    rw [h.v, h.vi]
    intro h0 hno n
    obtain ⟨h1, h2⟩ := hs.fresh h0 hno n
    exact ⟨by rw [Unvoted, h.votes, h.v]; exact h1, (h.cert n).blank h2⟩

theorem VInv.of_eq (hs : VInv cfg id r q s) (hv : t.v = s.v) (hvi : t.vi = s.vi)
    (hvotes : t.votes = s.votes) (hplog : t.plog = s.plog) :
    VInv cfg id r q t :=
  Calmly.inv ⟨hv, hvi, hvotes, by rw [hplog], fun n => by rw [cert, cert, hplog]; exact .refl⟩ hs

theorem VInv.weaken {r' : Int → Prop} (hs : VInv cfg id r q s) (hr : ∀ n, r' n → r n) :
    VInv cfg id r' q s :=
  { hs with reserved := fun n hn => hs.reserved n (hr n hn) }

theorem cert_set (c : PreparedCert) (m : Int) : (s.plog.set cfg.P.maxOut n c).entry cfg.P.maxOut m =
    if Log.slot cfg.P.maxOut m = Log.slot cfg.P.maxOut n then c else s.cert cfg m := by
  split
  · simp [Log.entry, Log.set, *]
  · exact Log.entry_set_of_slot_ne c ‹_›

theorem cert_of_slot {m : Int} (hm : Log.slot cfg.P.maxOut m = Log.slot cfg.P.maxOut n) :
    s.cert cfg m = s.cert cfg n := by
  simp only [cert, Log.entry, hm]

theorem calmly_set {c : PreparedCert} (hc : Calm (s.cert cfg n) c) :
    Calmly cfg s { s with plog := s.plog.set cfg.P.maxOut n c } := by
  refine ⟨rfl, rfl, rfl, rfl, fun m => ?_⟩
  change Calm _ ((s.plog.set cfg.P.maxOut n c).entry cfg.P.maxOut m)
  rw [cert_set]
  split
  · rw [cert_of_slot ‹_›]
    exact hc
  · exact .refl

/-- The window moves. -/
theorem VInv.truncate (hs : VInv cfg id r q s) (m : Int) :
    VInv cfg id r q { s with plog := s.plog.truncate cfg.P.maxOut PreparedCert.clear m } := by
  set t : Replica := { s with plog := s.plog.truncate cfg.P.maxOut PreparedCert.clear m } with ht
  have hhead : t.plog.head = max s.plog.head m := Log.truncate_head m
  have hcert : ∀ n, t.cert cfg n = s.cert cfg n ∨ Blank (t.cert cfg n) := by
    intro n
    have helems : t.plog.elems (Log.slot cfg.P.maxOut n) = s.plog.elems (Log.slot cfg.P.maxOut n) ∨
        t.plog.elems (Log.slot cfg.P.maxOut n) = (s.plog.elems (Log.slot cfg.P.maxOut n)).clear :=
          Log.truncate_elems m _
    rcases helems with he | he
    · exact .inl he
    · right
      rw [cert, Log.entry, he]
      exact PreparedCert.blank_clear
  have hblank : ∀ n, Blank (s.cert cfg n) → Blank (t.cert cfg n) :=
    fun n hb => (hcert n).elim (fun he => he ▸ hb) fun h => h
  refine ⟨hs.agreed, hs.vi, hs.outs, hs.viV, hs.held,
    hs.past, fun n => ?_, fun p hp hv hn => ?_, fun n hn => ?_, fun h0 hno n => ?_⟩
  · rcases hcert n with he | hb
    · rw [he]
      exact hs.sane n
    · exact hb.sane
  · have hle : s.plog.head ≤ p.seqno ∧ m ≤ p.seqno := by omega
    obtain ⟨hw, hmine⟩ := hs.kept p hp hv hle.1
    simp only [Log.withinRange, Bool.and_eq_true, decide_eq_true_eq] at hw ⊢
    refine ⟨⟨hn, by omega⟩, ?_⟩
    rw [cert, ht, Log.entry_truncate cfg.maxOut_dvd (by have := cfg.P.maxOut_lt; omega) hle.2 hw.2]
    exact hmine
  · obtain ⟨h1, h2, h3⟩ := hs.reserved n hn
    exact ⟨h1, h2, hblank n h3⟩
  · obtain ⟨h1, h2⟩ := hs.fresh h0 hno n
    exact ⟨h1, hblank n h2⟩

theorem fetchP_ensures {β : Type} {f : PreparedCert → Prog Replica β} {Q : β → Replica → Prop}
    (hN : s.Agreed) (hf : ∀ pc, pc = s.cert cfg n → s.plog.withinRange cfg.P.maxOut n = true →
      Ensures (f pc) s Q Agreed) :
    Ensures (fetchP cfg n >>= f) s Q Agreed := by
  refine Ensures.bind (Q := fun pc t => t = s ∧ pc = s.cert cfg n ∧
    s.plog.withinRange cfg.P.maxOut n = true) ?_ ?_
  · refine Reaches.get_bind (Reaches.ofOption hN fun pc hpc => ?_)
    obtain ⟨h1, h2⟩ := Log.fetch_eq_some.1 hpc
    exact ⟨rfl, h2.symm, h1⟩
  · rintro pc _ ⟨rfl, hpc, hw⟩
    exact hf pc hpc hw

/-- The program keeps the invariant. -/
abbrev VKeeps (cfg : Cfg) (id : Nat) (r : Int → Prop) (q : Nat) (x : Prog Replica α) : Prop :=
  Holds (VInv cfg id r q) Agreed x

theorem Quiet.vkeeps {x : Prog Replica α} (hx : Quiet x) : VKeeps cfg id r q x :=
  .of_within hx (fun _ _ h hs => h.calmly.inv hs) fun _ hs => hs.agreed

theorem stalePC_vkeeps (n : Int) : VKeeps cfg id r q (stalePC cfg id n) := by
  intro s hs
  refine fetchP_ensures hs.agreed fun pc hpc _ =>
    Reaches.get_bind (Reaches.ofOption_bind hs.agreed fun pc' hpc' => ?_)
  refine Reaches.modify_bind trivial
    (Quiet.vkeeps ?_ _ ((calmly_set (hpc ▸ PreparedCert.markStale_calm hpc')).inv hs))
  exact .bind (fetchC_quiet cfg n) fun cc => .ofOption_bind fun _ => setC_quiet cfg n _

theorem createPrePrepare_vkeeps (batch : List UInt8) :
    VKeeps cfg id r q (createPrePrepare cfg id batch) := by
  refine .modify_bind (fun s hs => hs.of_eq rfl rfl rfl rfl) (.get_bind fun s => ?_)
  refine .modify_bind (fun s hs => hs.of_eq rfl rfl rfl rfl) ?_
  refine .bind (Quiet.vkeeps (emit_quiet rfl)) fun _ t ht =>
    fetchP_ensures ht.agreed fun pc hpc _ => ?_
  refine Reaches.ofOption_bind ht.agreed fun pc' hpc' => Reaches.modify trivial ?_
  exact (calmly_set (hpc ▸ PreparedCert.addMinePrePrepare_calm hpc')).inv ht

theorem sendPrePrepare_vkeeps : VKeeps cfg id r q (sendPrePrepare cfg id) :=
  .get_bind fun _ => .assert_bind (fun _ hs => hs.agreed) fun _ => .when fun _ =>
    .bind (takeBatch_quiet cfg).vkeeps fun batch => createPrePrepare_vkeeps batch

theorem sendNull_vkeeps : VKeeps cfg id r q (sendNull cfg id) :=
  .get_bind fun _ => .assert_bind (fun _ hs => hs.agreed)
    fun _ => .when fun _ => createPrePrepare_vkeeps []

/-! ## Operations of `vi` -/

theorem VDue.bears : Bears (VDue cfg id r q) (VInv cfg id r q) Agreed where
  due _ _ h hs := ⟨h.calmly.inv hs.inv, hs.none⟩
  kept _ _ h hs := h.calmly.inv hs
  rest _ _ h hs := by rw [Agreed, h.votes]; exact hs
  ofDue _ hs := hs.inv.agreed
  ofKept _ hs := hs.agreed

variable {A : Prop} {w : ViewInfo} {q' : Nat}

theorem VInv.served (hs : VInv cfg id r q s) (hk : ViewInfo.Kept cfg id True A s.vi w)
    (hq : ∀ v, s.v < v → w.held cfg v ≤ q') :
    VInv cfg id r q' (served s w) := by
  have hv : w.v = s.v := hk.v.trans hs.viV
  have hkeeps := hk.keeps trivial
  have hcalled := hk.called trivial
  rw [hv, hs.viV] at hkeeps hcalled
  refine ⟨hs.agreed, hk.ok.served, rfl, hv, hq, hs.past,
    hs.sane, hs.kept, fun n hn => ?_, fun hz hno n => hs.fresh hz ?_ n⟩
  · obtain ⟨h1, h2, h3⟩ := hs.reserved n hn
    exact ⟨(hkeeps h1).1, h2, h3⟩
  · by_contra hne
    have hno : w.hasNewView cfg s.v = false := hno
    rw [(hkeeps (by simpa using hne)).1] at hno
    cases hno

theorem VInv.served_due (hid : id < cfg.n) (hs : VInv cfg id r q s)
    (hk : ViewInfo.Kept cfg id True A s.vi w) (hq : ∀ v, s.v < v → w.held cfg v ≤ q')
    (h1 : pnvOuts w.outs = 1) : VDue cfg id r q' (Replica.served s w) := by
  have hv : w.v = s.v := hk.v.trans hs.viV
  have hcomp : w.hasNewView cfg s.v = true := hv ▸ hk.ok.complete h1
  have hno : s.vi.hasNewView cfg s.v = false := by
    by_contra hne
    have := (hk.keeps trivial (by rw [hs.viV]; simpa using hne)).2
    rw [h1, hs.outs] at this
    cases this
  have hz : s.v ≠ 0 := by
    intro hz
    -- there is no new view for view `0`
    have hcomp : (w.lastNvs (cfg.primary s.v)).isComplete = true := hcomp
    have hne : (w.lastNvs (cfg.primary s.v)).v ≠ 0 := by
      intro hz
      rw [hk.ok.inv.zero _ hz] at hcomp
      cases hcomp
    have hpos := (hk.ok.inv.prim _ hne).1
    have hle := hk.ok.inv.not_later hid hcomp
    omega
  refine ⟨⟨hs.agreed, hk.ok.served, rfl, hv, hq, hs.past,
    hs.sane, hs.kept, fun n _ => ?_, fun hz hno' n => hs.fresh hz hno n⟩, fun n hn => ?_⟩
  · obtain ⟨h2, h3⟩ := hs.fresh hz hno n
    exact ⟨hcomp, h2, h3⟩
  · have := (hs.reserved n hn).1
    rw [hno] at this
    cases this

/-- The handler of the calls keeps the invariant. -/
abbrev VServes (cfg : Cfg) (id : Nat) (h : NVCall → Prog Replica Unit) : Prop :=
  ∀ r q, Serves h (VDue cfg id r q) (VInv cfg id r q) Agreed

theorem onVi_vinv (hid : id < cfg.n) (hh : VServes cfg id h) {op : Prog ViewInfo α}
    (hs : VInv cfg id r q s) (hop : ViewInfo.Keeps True True cfg id op s.vi) (hsilent : Silent op) :
    Ensures (onVi h op) s (fun _ t => VInv cfg id r q t) Agreed := by
  have hq : ViewInfo.Kept cfg id True True s.vi (op s.vi).2 → ∀ v,
    s.v < v → (op s.vi).2.held cfg v ≤ q := fun hk v hv =>
    (hk.held trivial v (by rw [hs.viV]; exact hv)).trans (hs.held v hv)
  exact (onVi_ensures (D := fun _ => VDue cfg id r q) (I := fun _ => VInv cfg id r q)
    (fun _ => VDue.bears) (fun _ => hh r q) hop hsilent
    hs.outs hs.agreed (fun hk _ => hs.served hk (hq hk))
      fun hk h1 => hs.served_due hid hk (hq hk) h1).imp (fun _ t ht => ht.1) fun _ h => h

/-! ## Stable checkpoints -/

section Calls

variable (hid : id < cfg.n) (hh : VServes cfg id h)

include hid hh

theorem kept_vinv (r : Int → Prop) (q : Nat) : Kept cfg id h (VInv cfg id r q) Agreed where
  rest _ hs := hs.agreed
  aside _ _ h hs := h.calmly.inv hs
  stalePC n := stalePC_vkeeps n
  onVi hop hsilent _ hs := onVi_vinv hid hh hs (hop hs.vi (by rw [hs.outs]; rfl)) hsilent

theorem advance_vkeeps (n : Int) (haveState : Bool) :
    VKeeps cfg id r q (advance cfg id h n haveState) := by
  have hk := kept_vinv hid hh r q
  refine .modify_bind (fun s hs => hs.of_eq rfl rfl rfl rfl) (.get_bind
    fun s => .bind (.when fun _ => ?_) fun _ => ?_)
  · refine hk.modify_bind (fun _ => ⟨rfl, rfl, rfl, rfl, rfl, rfl, rfl, rfl⟩)
      (.bind (hk.updateMaxRec hid) fun _ => ?_)
    exact hk.modify fun _ => ⟨rfl, rfl, rfl, rfl, rfl, rfl, rfl, rfl⟩
  refine .modify_bind (fun s hs => (hs.truncate (s.lastStable + 1)).of_eq rfl rfl rfl rfl)
    (.get_bind fun s => ?_)
  refine .bind (hk.onVi (fun hw _ => ViewInfo.markStable_keeps hid hw _) (.markStable cfg id _))
    fun _ => .get_bind fun s => ?_
  refine .ofOption_bind hk.rest fun e =>
    hk.modify_bind (fun _ => ⟨rfl, rfl, rfl, rfl, rfl, rfl, rfl, rfl⟩) ?_
  exact .get_bind fun s => hk.quiet (onState_quiet _)

theorem keptStable_vinv (r : Int → Prop) (q : Nat) : KeptStable cfg id h (VInv cfg id r q) Agreed :=
  { kept_vinv hid hh r q with
    advance := fun n haveState => advance_vkeeps hid hh n haveState
    sendPrePrepare := sendPrePrepare_vkeeps }

end Calls

/-! ## A prepare is sent -/

theorem Agreed.cons {p : Prepare} (hs : s.Agreed)
    (hnew : ∀ p' ∈ s.votes, p'.view = p.view → p'.seqno ≠ p.seqno) :
    Agreed { s with sent := (none, .prepare p) :: s.sent } := by
  intro a ha b hb hv hn
  rcases List.mem_cons.1 (show a ∈ p :: s.votes from ha) with rfl | ha'
  · rcases List.mem_cons.1 (show b ∈ a :: s.votes from hb) with rfl | hb'
    · rfl
    · exact absurd hn.symm (hnew b hb' hv.symm)
  · rcases List.mem_cons.1 (show b ∈ p :: s.votes from hb) with rfl | hb'
    · exact absurd hn (hnew a ha' hv)
    · exact hs a ha' b hb' hv hn

/-- A prepare for a sequence number that has none, with the certificate that knows it. -/
theorem VInv.vote {p : Prepare} {c : PreparedCert} (hs : VInv cfg id r q s) (hv : p.view = s.v)
    (hn : p.seqno = n) (hw : s.plog.withinRange cfg.P.maxOut n = true) (hun : s.Unvoted n)
    (hnew : s.v = 0 ∨ s.vi.hasNewView cfg s.v = true)
    (hr : ∀ m, r m → Log.slot cfg.P.maxOut m ≠ Log.slot cfg.P.maxOut n) (hm : c.myPrepare = some p)
    (hc : Sane c) :
    VInv cfg id r q { s with plog := s.plog.set cfg.P.maxOut n c,
                             sent := (none, .prepare p) :: s.sent } := by
  subst hn
  set t : Replica := { s with plog := s.plog.set cfg.P.maxOut p.seqno c,
                              sent := (none, .prepare p) :: s.sent } with ht
  have hcert : ∀ m, t.cert cfg m = if Log.slot cfg.P.maxOut m = Log.slot cfg.P.maxOut p.seqno then c
    else s.cert cfg m := fun m => cert_set c m
  have hvotes : ∀ {P : Prepare → Prop}, P p → (∀ p' ∈ s.votes, P p') → ∀ p' ∈ t.votes, P p' := by
    intro P h1 h2 p' hp'
    rcases List.mem_cons.1 (show p' ∈ p :: s.votes from hp') with rfl | hp'
    · exact h1
    · exact h2 p' hp'
  refine ⟨hs.agreed.cons fun p' hp' hpv => hun p' hp' (hpv.trans hv),
    hs.vi, hs.outs, hs.viV, hs.held, hvotes hv.le hs.past,
    fun m => ?_, hvotes (fun _ _ => ⟨hw, by rw [hcert, if_pos rfl]; exact hm⟩)
      fun p' hp' hpv hpn => ?_, fun m hrm => ?_, fun h0 hno => ?_⟩
  · rw [hcert]
    split
    · exact hc
    · exact hs.sane m
  · obtain ⟨h1, h2⟩ := hs.kept p' hp' hpv hpn
    refine ⟨h1, ?_⟩
    rw [hcert, if_neg fun heq => hun p' hp' hpv ?_]
    · exact h2
    · simp only [Log.withinRange, Bool.and_eq_true, decide_eq_true_eq] at h1 hw
      exact Log.slot_inj h1 hw heq
  · obtain ⟨h1, h2, h3⟩ := hs.reserved m hrm
    refine ⟨h1, hvotes (fun _ he => hr m hrm (by rw [he])) h2, ?_⟩
    rw [hcert, if_neg (hr m hrm)]
    exact h3
  · exact absurd (hnew.resolve_left h0)
      (by rw [show s.vi.hasNewView cfg s.v = false from hno]; exact Bool.false_ne_true)

/-- A certificate with the same own prepare, in a view that has its new view. -/
theorem VInv.exchange {c : PreparedCert} (hs : VInv cfg id r q s) (hr : ∀ n, ¬r n)
    (hnew : s.v = 0 ∨ s.vi.hasNewView cfg s.v = true) (hm : c.pc.mym = (s.cert cfg n).pc.mym)
    (hc : Sane c) : VInv cfg id r q { s with plog := s.plog.set cfg.P.maxOut n c } := by
  set t : Replica := { s with plog := s.plog.set cfg.P.maxOut n c } with ht
  have hcert : ∀ m, t.cert cfg m = if Log.slot cfg.P.maxOut m = Log.slot cfg.P.maxOut n then c
    else s.cert cfg m := fun m => cert_set c m
  have hmine : ∀ m, (t.cert cfg m).pc.mym = (s.cert cfg m).pc.mym := by
    intro m
    rw [hcert]
    split
    · rename_i heq
      rw [hm, cert_of_slot heq]
    · rfl
  refine ⟨hs.agreed, hs.vi, hs.outs, hs.viV, hs.held,
    hs.past, fun m => ?_, fun p hp hv hn => ?_, fun m hrm => absurd hrm (hr m),
    fun h0 hno => ?_⟩
  · rw [hcert]
    split
    · exact hc
    · exact hs.sane m
  · obtain ⟨h1, h2⟩ := hs.kept p hp hv hn
    exact ⟨h1, (hmine _).trans h2⟩
  · exact absurd (hnew.resolve_left h0)
      (by rw [show s.vi.hasNewView cfg s.v = false from hno]; exact Bool.false_ne_true)

theorem VInv.unvoted (hs : VInv cfg id r q s) (hw : s.plog.withinRange cfg.P.maxOut n = true)
    (hm : (s.cert cfg n).myPrepare = none) :
    s.Unvoted n := by
  rintro p hp hv rfl
  simp only [Log.withinRange, Bool.and_eq_true, decide_eq_true_eq] at hw
  have := (hs.kept p hp hv hw.1).2
  rw [hm] at this
  cases this

/-- **`send_prepare`**, where no other digest than that of the pre-prepare is the correct value. -/
theorem sendPrepare_vinv {m : PrePrepareMsg} (hs : VInv cfg id r q s) (hr : ∀ n, ¬r n)
    (hnew : s.v = 0 ∨ s.vi.hasNewView cfg s.v = true) (hpp : (s.cert cfg m.seqno).pp = some m)
    (hd : (s.cert cfg m.seqno).myPrepare = none → ∀ cv,
      (s.cert cfg m.seqno).pc.cvalue = some cv → cv.digest = m.digest) :
    Ensures (sendPrepare cfg id m.seqno) s (fun _ t => VInv cfg id r q t) Agreed := by
  refine fetchP_ensures hs.agreed fun pc hpc hw => ?_
  rw [← hpc] at hpp hd
  rw [hpp]
  cases hmy : pc.myPrepare with
  | some _ => exact Reaches.pure hs
  | none =>
    have hun : s.Unvoted m.seqno := hs.unvoted hw (hpc ▸ hmy)
    refine Reaches.get_bind (Reaches.modify_bind trivial ?_)
    refine Reaches.ofOption_bind (hs.agreed.cons fun p' hp' hv => hun p' hp' hv)
      fun res hres => Reaches.modify trivial ?_
    obtain ⟨h1, h2⟩ := PreparedCert.addMine_records hres (hd hmy)
    exact hs.vote rfl rfl hw hun hnew (fun n hn => absurd hn (hr n)) h1 h2

/-- Where the certificate accepts the pre-prepare and has no prepare of the replica, no other digest
is the correct value. -/
def undisputed (cfg : Cfg) (id : Nat) (s : Replica) (m : PrePrepareMsg)
    (nrc reqsOk : Bool) : Bool :=
  match s.plog.fetch cfg.P.maxOut m.seqno with
  | some pc =>
    pc.pp.isSome || pc.myPrepare.isSome || pc.accepts (cfg.env id) m nrc reqsOk != some true ||
      pc.pc.cvalue.all fun cv => cv.digest == m.digest
  | none => true

section Calls

variable (hid : id < cfg.n) (hh : VServes cfg id h)

include hid hh

theorem acceptPrePrepare_vinv {m : PrePrepareMsg} {nrc reqsOk : Bool} (hs : VInv cfg id r q s)
    (hr : ∀ n, ¬r n) (hnew : s.v = 0 ∨ s.vi.hasNewView cfg s.v = true)
    (hd : s.undisputed cfg id m nrc reqsOk = true) :
    Ensures (acceptPrePrepare cfg id h m nrc reqsOk) s (fun _ t => VInv cfg id r q t) Agreed := by
  have hk := keptStable_vinv hid hh r q
  refine fetchP_ensures hs.agreed fun pc hpc hw => Reaches.ofOption_bind hs.agreed
    fun res hres => Reaches.modify_bind trivial ?_
  have hfetch : s.plog.fetch cfg.P.maxOut m.seqno = some pc := Log.fetch_eq_some.2 ⟨hw, hpc.symm⟩
  rcases PreparedCert.addPrePrepare_cases hres with ⟨h1, h2⟩ | ⟨h1, hpp, -, h2, -⟩
  · rw [h1, h2]
    exact Reaches.pure ((calmly_set (hpc ▸ .refl)).inv hs)
  -- the certificate has the pre-prepare now
  set t : Replica := { s with plog := s.plog.set cfg.P.maxOut m.seqno res.1 } with ht
  have hinv : VInv cfg id r q t := (calmly_set (hpc ▸ h2 ▸ .of_pc rfl)).inv hs
  have hcert : t.cert cfg m.seqno = { pc with pp := some m } := (Log.entry_set_self _).trans h2
  refine Reaches.when (fun _ => ?_) fun _ => hinv
  refine Ensures.bind (sendPrepare_vinv hinv hr hnew (by rw [hcert]) ?_)
    fun _ u hu => hk.commitIfComplete hid _ u hu
  rw [hcert]
  intro hmy cv hcv
  have hmy : pc.myPrepare = none := hmy
  have hacc : pc.accepts (cfg.env id) m nrc reqsOk = some true := by
    unfold PreparedCert.addPrePrepare at hres
    rw [hpp] at hres
    obtain ⟨b, hb, hres⟩ := Option.map_eq_some_iff.1
      (show (pc.accepts (cfg.env id) m nrc reqsOk).map _ = some res from hres)
    cases b with
    | true => exact hb
    | false =>
      rw [← hres] at h1
      cases h1
  have hcv : pc.pc.cvalue = some cv := hcv
  simpa [undisputed, hfetch, hpp, hmy, hacc, hcv] using hd

theorem handlePrePrepare_vinv {m : PrePrepareMsg} {nrc reqsOk : Bool} (digestOk : Bool)
    (hs : VInv cfg id r q s) (hr : ∀ n, ¬r n) (hd : s.v = m.view →
      s.hasNewView cfg = true → s.lowBound < m.seqno → s.undisputed cfg id m nrc reqsOk = true) :
    Ensures (handlePrePrepare cfg id h m nrc reqsOk digestOk)
      s (fun _ t => VInv cfg id r q t) Agreed := by
  have hk := keptStable_vinv hid hh r q
  refine Ensures.bind ((inWv_ensures cfg _ _ _).imp (fun _ _ h => h)
    fun t ht => hk.rest t (hk.aside s t ht hs)) ?_
  rintro w t ⟨ht, hw⟩
  refine Reaches.get_bind (Reaches.ite (fun hc => ?_)
    fun _ => Reaches.when (fun _ => ?_) fun _ => hk.aside s t ht hs)
  · simp only [Bool.and_eq_true, decide_eq_true_eq] at hc
    obtain ⟨rfl, hv⟩ := hw hc.1.1
    exact acceptPrePrepare_vinv hid hh hs hr (hasNewView_cases hc.2) (hd hv.symm hc.2 hc.1.2)
  · exact hk.onVi (fun hw _ => ViewInfo.addMissing_keeps hid hw m digestOk)
      (.onNv cfg id _ _) t (hk.aside s t ht hs)

theorem acceptPrepare_vinv {m : Prepare} {verify : Bool} (hs : VInv cfg id r q s) (hr : ∀ n, ¬r n)
    (hnew : s.v = 0 ∨ s.vi.hasNewView cfg s.v = true) :
    Ensures (acceptPrepare cfg id h m verify) s (fun _ t => VInv cfg id r q t) Agreed := by
  refine fetchP_ensures hs.agreed fun pc hpc _ => Reaches.ofOption_bind hs.agreed
    fun res hres => Reaches.modify_bind trivial ?_
  subst hpc
  obtain ⟨h1, h2⟩ := PreparedCert.add_sane hres (hs.sane m.seqno)
  have hinv := hs.exchange hr hnew h1 h2
  exact Reaches.when (fun _ => (keptStable_vinv hid hh r q).commitIfComplete hid _ _ hinv)
    fun _ => hinv

theorem handlePrepare_vinv {m : Prepare} {verify : Bool} (hs : VInv cfg id r q s) (hr : ∀ n, ¬r n) :
    Ensures (handlePrepare cfg id h m verify) s (fun _ t => VInv cfg id r q t) Agreed := by
  have hk := keptStable_vinv hid hh r q
  refine Ensures.bind ((inWv_quiet cfg _ _ _).vkeeps s hs)
    fun w t ht => Reaches.get_bind (Reaches.ite (fun hc => ?_) fun _ => ?_)
  · simp only [Bool.and_eq_true] at hc
    exact acceptPrepare_vinv hid hh ht hr (hasNewView_cases hc.2)
  · exact Reaches.when (fun _ => hk.onVi (fun hw _ => ViewInfo.addMissingPrepare_keeps hid hw m)
      (.onNv cfg id _ _) t ht) fun _ => ht

/-! ## A new view -/

/-- One pre-prepare of the new view, and the prepare for it. -/
theorem newViewRequest_vinv {i : Int} {is : List Int} (hs : VInv cfg id (· ∈ i :: is) q s)
    (hslot : ∀ n ∈ is, Log.slot cfg.P.maxOut n ≠ Log.slot cfg.P.maxOut i) :
    Ensures (newViewRequest cfg id h i) s (fun _ t => VInv cfg id (· ∈ is) q t) Agreed := by
  refine Reaches.get_bind (Ensures.bind
    (onVi_vinv hid hh hs (ViewInfo.fetchRequest_keeps hid hs.vi i) (.onNv cfg id _ _)) ?_)
  rintro ⟨pp, d⟩ t ht
  have hweak : VInv cfg id (· ∈ is) q t := ht.weaken fun n hn => List.mem_cons_of_mem _ hn
  obtain ⟨hnew, hun, hblank⟩ := ht.reserved i List.mem_cons_self
  refine fetchP_ensures ht.agreed fun pc hpc hw =>
    Reaches.get_bind (Reaches.ite (fun _ => ?_) fun _ => ?_)
  · refine Reaches.modify_bind trivial (Reaches.ofOption_bind ht.agreed
      fun pc' hpc' => Reaches.modify trivial ?_)
    exact ((calmly_set (hpc ▸ PreparedCert.addMinePrePrepare_calm hpc')).inv hweak).of_eq
      rfl rfl rfl rfl
  · refine Reaches.ofOption_bind ht.agreed fun res hres => Reaches.modify_bind trivial ?_
    obtain ⟨hmine, hsane⟩ := PreparedCert.addMine_records hres fun cv hcv => by
      rw [hpc, hblank.cvalue] at hcv
      cases hcv
    have hvote :=
      hweak.vote (p := ⟨t.v, i, d, id, false⟩) rfl rfl hw hun (.inr hnew) hslot hmine hsane
    refine Reaches.assert_bind hvote.agreed fun _ =>
      Reaches.ofOption_bind hvote.agreed fun pc' hpc' => Reaches.modify trivial ?_
    refine (calmly_set ?_).inv hvote
    change Calm ((t.plog.set cfg.P.maxOut i res.1).entry cfg.P.maxOut i) pc'
    rw [Log.entry_set_self]
    exact PreparedCert.addOld_calm hpc'

/-- **`process_new_view`**: there is no prepare in the view before. -/
theorem processNewView_vinv (hs : VDue cfg id r q s) (min max ms : Int) :
    Ensures (processNewView cfg id h min max ms) s (fun _ t => VInv cfg id r q t) Agreed := by
  have hall := keptStable_vinv hid hh (fun _ => True) q
  have hk := keptStable_vinv hid hh r q
  refine Reaches.assert_bind hs.inv.agreed fun _ => Reaches.get_bind ?_
  refine Ensures.bind (Q := fun _ t => VInv cfg id (fun _ => True) q t) (Reaches.when (fun _ => ?_)
    fun _ => hs.inv) fun _ t ht => ?_
  · refine Reaches.modify_bind trivial (Reaches.ofOption_bind hs.inv.agreed fun nv _ => ?_)
    exact hall.quiet (emit_quiet rfl) _ (hs.inv.of_eq rfl rfl rfl rfl)
  set lo := if min < s.lastStable then s.lastStable else min with hlo
  refine Reaches.modify_bind trivial
    (Ensures.bind (Q := fun _ u => VInv cfg id (fun _ => True) q u) ?_ fun _ u hu => ?_)
  · have hstart :=
      ht.of_eq (t := { t with limbo := false, seqno := max - 1, lowBound := lo }) rfl rfl rfl rfl
    exact Reaches.when (fun _ => hall.markStable _ _ _ _ hstart) fun _ => hstart
  refine Reaches.get_bind (Reaches.assert_bind hu.agreed fun hwin => ?_)
  obtain ⟨hwin1, hwin2⟩ : u.lastStable ≤ lo ∧ max - u.lastStable - 1 ≤ cfg.P.maxOut := by
    simpa using hwin
  refine Ensures.bind
    (each_window (I := fun r => VInv cfg id r q) (fun ht => newViewRequest_vinv hid hh ht)
    (hu.weaken fun _ _ => trivial) (show max - (lo + 1) ≤ cfg.P.maxOut by omega)) fun _ w hw => ?_
  have hw : VInv cfg id r q w := hw.weaken fun n hn => absurd hn (hs.none n)
  have hrest : VKeeps cfg id r q (do
      let s ← get
      when (s.isPrimary cfg id) (sendPrePrepare cfg id)
      let s ← get
      if s.lastExecuted < lo then do
        modify fun s => { s with hasNvState := false }
        onState fun st => st.startFetch cfg s.lastExecuted
      else modify fun s => { s with hasNvState := true }) := by
    refine .get_bind fun s => .bind (.when fun _ => sendPrePrepare_vkeeps)
      fun _ => .get_bind fun s => .ite (fun _ => ?_) fun _ => ?_
    · exact hk.modify_bind (fun _ => ⟨rfl, rfl, rfl, rfl, rfl, rfl, rfl, rfl⟩)
        (hk.quiet (onState_quiet _))
    · exact hk.modify fun _ => ⟨rfl, rfl, rfl, rfl, rfl, rfl, rfl, rfl⟩
  exact hrest w hw

end Calls

/-- The calls of the `NV_info`s, however deep. -/
theorem handleCall_vserves (hid : id < cfg.n) : ∀ depth, VServes cfg id (handleCall cfg id depth)
  | 0 => fun _ _ => ⟨.stop, fun _ _ _ _ _ hs => Reaches.stop hs.inv.agreed⟩
  | depth + 1 =>
    fun _ _ => ⟨sendStatus_quiet cfg, fun _ _ _ _ _ hs =>
      processNewView_vinv hid (handleCall_vserves hid depth) hs _ _ _⟩

theorem calls_vserves (hid : id < cfg.n) : VServes cfg id (calls cfg id) := handleCall_vserves hid 3

/-! ## Entering a view -/

/-- The replica is on its way into view `nv`; the certificates of the sequence numbers in `done` are
cleared. -/
structure VLeaving (cfg : Cfg) (id : Nat) (nv : Int) (done : Int → Prop) (s : Replica) : Prop where
  agreed : s.Agreed
  vi : ViewInfo.Ok cfg id s.vi
  outs : s.vi.outs = []
  v : s.v = nv
  viV : s.vi.v < nv
  held : ∀ w, nv < w → s.vi.held cfg w ≤ cfg.f
  past : ∀ p ∈ s.votes, p.view ≤ s.vi.v
  cleared : ∀ n, done n → Blank (s.cert cfg n)

variable {nv : Int} {done : Int → Prop}

theorem Aside.vleaving (h : Aside s t) (hs : VLeaving cfg id nv done s) :
    VLeaving cfg id nv done t := by
  refine ⟨?_, ?_, ?_, ?_, ?_, ?_, ?_, ?_⟩ <;> simp only [Agreed, cert, h.v, h.vi, h.votes, h.plog]
  exacts [hs.agreed, hs.vi, hs.outs, hs.v, hs.viV, hs.held, hs.past, hs.cleared]

theorem Quiet.vleaving {x : Prog Replica α} (hx : Quiet x) (hs : VLeaving cfg id nv done s) :
    Ensures x s (fun _ t => VLeaving cfg id nv done t) Agreed :=
  (hx.ensures s).imp (fun _ _ ht => ht.vleaving hs) fun _ ht => (ht.vleaving hs).agreed

theorem collect_vleaving {i : Int} {done' : Int → Prop} (hs : VLeaving cfg id nv done s)
    (hd : ∀ n, done' n → done n ∨ Log.slot cfg.P.maxOut n = Log.slot cfg.P.maxOut i) :
    Ensures (collect cfg h i) s (fun _ t => VLeaving cfg id nv done' t) Agreed := by
  refine Ensures.bind ((fetchP_quiet cfg i).vleaving hs)
    fun pc t ht => Ensures.bind ((fetchC_quiet cfg i).vleaving ht) fun cc u hu => ?_
  refine Reaches.ofOption_bind hu.agreed fun complete _ =>
    Ensures.bind (onVi_noteCert hu.vi hu.outs (fun _ => hu.agreed) i pc complete) ?_
  rintro _ _ ⟨w, rfl, hk⟩
  have hv : w.v = u.vi.v := hk.v
  refine Reaches.modify_bind trivial ((setC_quiet cfg i _).vleaving ⟨hu.agreed,
    hk.ok.served, rfl, hu.v, ?_, fun x hx => ?_, ?_, fun n hn => ?_⟩)
  · exact hv ▸ hu.viV
  · exact (hk.held trivial x (hu.viV.trans hx)).trans (hu.held x hx)
  · change ∀ p ∈ u.votes, p.view ≤ w.v
    rw [hv]
    exact hu.past
  · change Blank ((u.plog.set cfg.P.maxOut i pc.clear).entry cfg.P.maxOut n)
    rw [cert_set]
    split
    · exact PreparedCert.blank_clear
    · exact hu.cleared n ((hd n hn).resolve_right ‹_›)

/-- With all certificates cleared, nothing is known in the view, and nothing was sent. -/
theorem VLeaving.inv (hs : VLeaving cfg id nv (fun _ => True) s) {x w : ViewInfo}
    (hx : ViewInfo.Entered cfg s.v s.vi x) (hk : ViewInfo.Kept cfg id True True x w)
    (hr : ∀ n, r n → pnvOuts w.outs = 1) : VInv cfg id r cfg.f (served s w) := by
  have hwv : w.v = s.v := hk.v.trans hx.v
  have hun : ∀ n, s.Unvoted n := fun n p hp hv => by
    have := hs.past p hp
    have := hs.viV
    have := hs.v
    omega
  have hblank : ∀ n, Blank (s.cert cfg n) := fun n => hs.cleared n trivial
  refine ⟨hs.agreed, hk.ok.served, rfl, hwv, fun y hy =>
    ?_, fun p hp => ?_, fun n => (hblank n).sane, fun p hp hv _ => ?_, fun n hn => ?_,
    fun _ _ n => ⟨hun n, hblank n⟩⟩
  · exact (hk.held trivial y (hx.v ▸ hy)).trans ((hx.held y hy).trans (hs.held y (hs.v ▸ hy)))
  · exact ((hs.past p hp).trans hs.viV.le).trans hs.v.ge
  · exact absurd rfl (hun p.seqno p hp hv)
  · exact ⟨hwv ▸ hk.ok.complete (hr n hn), hun n, hblank n⟩

/-- **`send_view_change`** clears all certificates. -/
theorem sendViewChange_vinv (hid : id < cfg.n) (hh : VServes cfg id h) {v : Int}
    (hagreed : s.Agreed) (hvi : ViewInfo.Ok cfg id s.vi) (houts : s.vi.outs = []) (hv : s.v + 1 = v)
    (hlt : s.vi.v < v) (hheld : ∀ w, v < w → s.vi.held cfg w ≤ cfg.f)
    (hpast : ∀ p ∈ s.votes, p.view ≤ s.vi.v) :
    Ensures (sendViewChange cfg id h) s (fun _ t =>
        VInv cfg id (fun _ => False) cfg.f t) Agreed := by
  have hstart : VLeaving cfg id v (fun _ => False) { s with v := s.v + 1, limbo := true } :=
    ⟨hagreed, hvi, houts, hv, hlt, hheld, hpast, fun _ hn => hn.elim⟩
  refine Reaches.modify_bind trivial (Ensures.bind ((rollback_quiet cfg).vleaving hstart)
    fun _ t ht => ?_)
  have ht' : VLeaving cfg id v (fun _ => False) { t with lastPrepared := t.lastExecuted } :=
    Aside.vleaving (s := t) ⟨rfl, rfl, rfl, rfl, rfl, rfl, rfl, rfl⟩ ht
  refine Reaches.modify_bind trivial (Reaches.get_bind ?_)
  -- the loop over the window clears every slot
  set lo := t.lastStable + 1 with hlo
  refine Ensures.bind (Q := fun _ u => VLeaving cfg id v (fun _ => True) u) ?_
    fun _ u hu => Reaches.get_bind ?_
  · refine Reaches.mono (Reaches.each (I := fun is u => VLeaving cfg id v
      (fun n => ∃ m, (lo ≤ m ∧ m < t.lastStable + cfg.P.maxOut + 1) ∧
        m ∉ is ∧ Log.slot cfg.P.maxOut n = Log.slot cfg.P.maxOut m) u)
      (fun i is u hu => collect_vleaving hu ?_) _ _ ?_)
        fun _ u hu => ⟨hu.agreed, hu.vi, hu.outs, hu.v, hu.viV, hu.held, hu.past, fun n _ => ?_⟩
    · rintro n ⟨m, hm, hmem, hslot⟩
      by_cases hi : m = i
      · exact .inr (hi ▸ hslot)
      · exact .inl ⟨m, hm, by simp [hi, hmem], hslot⟩
    · exact ⟨ht'.agreed, ht'.vi, ht'.outs, ht'.v, ht'.viV,
        ht'.held, ht'.past, fun n ⟨m, hm, hmem, _⟩ => absurd (mem_intRange.2 hm) hmem⟩
    · obtain ⟨m, h1, h2, h3⟩ := Log.exists_slot (l := ⟨lo, fun _ : Nat => ()⟩) cfg.P.maxOut_pos n
      have h2 : m < lo + cfg.P.maxOut := h2
      exact hu.cleared n ⟨m, ⟨h1, by omega⟩, List.not_mem_nil, h3.symm⟩
  · refine enterView_ensures (D := VDue cfg id (fun _ => False) cfg.f)
      VDue.bears (hh _ _) hid hu.vi hu.outs (hu.v ▸ hu.viV)
      (fun _ => hu.agreed) (fun x w hx hk _ => hu.inv hx hk fun _ hn => hn.elim)
        (fun x w hx hk h1 => ⟨hu.inv hx hk fun _ _ => h1, fun _ hn => hn⟩) _ _ _ _

/-! ## Events -/

/-- Between two events. -/
abbrev VRest (cfg : Cfg) (id : Nat) (s : Replica) : Prop := VInv cfg id (fun _ => False) cfg.f s

/-- What the replica voted for is not forgotten: a pre-prepare that it accepts is not in dispute,
and a new-view message replaces no complete new view of the current view. -/
def remembers (cfg : Cfg) (id : Nat) (s : Replica) : Event → Bool
  | .prePrepare m nrc reqsOk _ =>
    m.view != s.v || !s.hasNewView cfg || decide (m.seqno ≤ s.lowBound) ||
      s.undisputed cfg id m (nrc && cfg.primary m.view != id) reqsOk
  | .newView m verified =>
    !(verified && m.wellFormed cfg && m.id cfg != id) ||
      m.id cfg != cfg.primary s.v || decide (m.v ≤ (s.vi.lastNvs (m.id cfg)).v) ||
      !s.vi.hasNewView cfg s.v
  | _ => true

section Events

variable (hid : id < cfg.n)

include hid

theorem VInv.sendViewChange {q : Nat} (hs : VInv cfg id r q s) {v : Int} (hlt : s.v < v)
    (hheld : ∀ w, v < w → s.vi.held cfg w ≤ cfg.f) :
    Ensures (sendViewChange cfg id (calls cfg id)) { s with v := v - 1 }
      (fun _ t => VRest cfg id t) Agreed := by
  refine sendViewChange_vinv hid (calls_vserves hid) (v := v)
    hs.agreed hs.vi hs.outs ?_ (by rw [hs.viV]; exact hlt) hheld ?_
  · exact Int.sub_add_cancel v 1
  · rw [hs.viV]
    exact hs.past

/-- The next view. -/
theorem VInv.nextView (hs : VRest cfg id s) : Ensures (Replica.sendViewChange cfg id (calls cfg id))
    s (fun _ t => VRest cfg id t) Agreed := by
  have := hs.sendViewChange hid (v := s.v + 1) (by omega) fun w hw => hs.held w (by omega)
  rw [show s.v + 1 - 1 = s.v by omega] at this
  exact this

theorem handleViewChange_vinv (hs : VRest cfg id s) {m : ViewChange} {verified : Bool}
    (digestOk : Bool) (hver : verified = true → m.id ≠ id ∧ 0 < m.v) :
    Ensures (handleViewChange cfg id m verified digestOk) s (fun _ t => VRest cfg id t) Agreed := by
  refine Reaches.get_bind (Ensures.bind (Reaches.when (fun _ => hs.nextView hid) fun _ => hs)
    fun _ t ht => ?_)
  -- one more view-change may be kept, until the replica joins its view
  have hcalm : ∀ w, t.vi.v < w → t.vi.held cfg w ≤ cfg.f := fun w hw => ht.held w (ht.viV ▸ hw)
  let bound : Option Bool → Nat := fun o => if o = some false then cfg.f else cfg.f + 1
  have hq : ViewInfo.Kept cfg id True False t.vi
    (ViewInfo.addViewChange cfg id m verified digestOk t.vi).2 → ∀ w, t.v < w →
      (ViewInfo.addViewChange cfg id m verified digestOk t.vi).2.held cfg w ≤
        bound (ViewInfo.addViewChange cfg id m verified digestOk t.vi).1 := by
    intro hk w hw
    have hw : t.vi.v < w := ht.viV ▸ hw
    simp only [bound]
    split
    · rename_i ho
      exact ((ViewInfo.addViewChange_false m verified digestOk).result.1
        false ho rfl w).trans (hcalm w hw)
    · exact hk.ok.inv.few w (hk.v ▸ hw)
  refine Ensures.bind (onVi_ensures (D := fun o => VDue cfg id (fun _ => False) (bound o))
    (I := fun o => VInv cfg id (fun _ => False) (bound o))
    (fun _ => VDue.bears) (fun _ => calls_vserves hid _ _)
    (ViewInfo.addViewChange_keeps (K := True) (A := False)
      (fun h => h) hid ht.vi hcalm (by rw [ht.outs]; rfl) digestOk hver)
    (.addViewChange cfg id m verified digestOk) ht.outs ht.agreed (fun hk _ => ht.served hk (hq hk))
      fun hk h1 => ht.served_due hid hk (hq hk) h1) ?_
  rintro modified u ⟨hu, -, -⟩
  refine Reaches.when (fun hmod => Reaches.get_bind (Reaches.ite (fun hlt => ?_) fun hle => ?_))
    fun hmod => ?_
  · refine Reaches.modify_bind trivial (hu.sendViewChange hid hlt fun w hw => ?_)
    exact ViewInfo.held_le_of_maxView hu.vi.inv (by rw [hu.viV]; omega) hw
  · have hrest : VRest cfg id u :=
      { hu with held := fun w hw => ViewInfo.held_le_of_maxView hu.vi.inv (hu.viV ▸ hw) (by omega) }
    refine Reaches.when (fun _ => Reaches.assert_bind hu.agreed
      fun _ => Reaches.when (fun _ => ?_) fun _ => hrest) fun _ => hrest
    exact Reaches.modify trivial (hrest.of_eq rfl rfl rfl rfl)
  · rw [hmod] at hu
    exact hu

theorem handleNewView_vinv (hs : VRest cfg id s) {m : NewView} {verified : Bool}
    (hver : verified = true → m.id cfg ≠ id ∧ 0 < m.v) (hd : verified = true → m.id cfg =
      cfg.primary s.v → (s.vi.lastNvs (m.id cfg)).v < m.v → s.vi.hasNewView cfg s.v = false) :
    Ensures (handleNewView cfg id m verified) s (fun _ t => VRest cfg id t) Agreed := by
  refine onVi_vinv hid (calls_vserves hid) hs
    (ViewInfo.addNewView_keeps hid hs.vi (by rw [hs.outs]; rfl) hver fun _ hv hp hlt => ?_)
    (.addNewView cfg id m verified)
  rw [hs.viV] at hp ⊢
  exact hd hv hp hlt

theorem handle_vinv (hs : VRest cfg id s) (e : Event) (hd : s.remembers cfg id e = true) :
    Ensures (handle cfg id e) s (fun _ t => VRest cfg id t) Agreed := by
  have hk := keptStable_vinv hid (calls_vserves hid) (fun _ => False) cfg.f
  have hr : ∀ n : Int, ¬(fun _ : Int => False) n := fun _ h => h
  cases e with
  | prePrepare m nrc reqsOk digestOk =>
    refine handlePrePrepare_vinv hid (calls_vserves hid) digestOk hs hr fun hv hnew hlow => ?_
    simpa [remembers, hv, hnew, Int.not_le.2 hlow] using hd
  | prepare m verify => exact handlePrepare_vinv hid (calls_vserves hid) hs hr
  | commit m verify => exact hk.handleCommit hid m _ s hs
  | checkpoint m verify old => exact hk.handleCheckpoint m _ old s hs
  | status m verify => exact hk.handleStatus m verify s hs
  | viewChange m verified digestOk =>
    refine handleViewChange_vinv hid hs digestOk fun hver => ?_
    simp only [ViewChange.wellFormed, Bool.and_eq_true, decide_eq_true_eq, bne_iff_ne] at hver
    exact ⟨hver.2, hver.1.2.1.2.2.1⟩
  | newView m verified =>
    refine handleNewView_vinv hid hs (fun hver => ?_) fun hver hp hlt => ?_
    · simp only [NewView.wellFormed, Bool.and_eq_true, decide_eq_true_eq, bne_iff_ne] at hver
      exact ⟨hver.2, hver.1.2.1.1⟩
    · simp only [remembers, hver, Bool.not_true, Bool.false_or,
        Bool.or_eq_true, bne_iff_ne, decide_eq_true_eq,
        Bool.not_eq_true'] at hd
      exact hd.resolve_left fun h => h.elim (fun hne => hne hp) fun hle => by omega
  | ack m verified => exact hk.handleAck hid m _ s hs
  | request r => exact hk.handleRequest r s hs
  | fetched c mem lm =>
    exact hk.handleFetched hid (fun _ _ _ hs => hs.of_eq rfl rfl rfl rfl) c mem lm s hs
  | viewTimer => exact Reaches.get_bind (Reaches.when (fun _ => hs.nextView hid) fun _ => hs)
  | statusTimer => exact hk.quiet (sendStatus_quiet cfg) s hs
  | nullTimer => exact Reaches.get_bind (Reaches.when (fun _ => sendNull_vkeeps s hs) fun _ => hs)
  | newKey => exact hk.sendNewKey hid s hs

end Events

/-! ## Runs -/

theorem vinv_new (mem : Mem) : VRest cfg id (new cfg id mem) where
  agreed := by simp [Agreed, votes, new]
  vi := ViewInfo.ok_new
  outs := rfl
  viV := rfl
  held w _ := (ViewInfo.held_new w).le.trans (Nat.zero_le _)
  past := by simp [votes, new]
  sane _ h := by cases h
  kept := by simp [votes, new]
  reserved _ h := h.elim
  fresh h := absurd rfl h

/-- Between the events of a run. -/
structure VRun (cfg : Cfg) (id : Nat) (s : Replica) : Prop where
  agreed : s.Agreed
  running : s.halted = false → VRest cfg id s

theorem step_vrun (hid : id < cfg.n) (hs : VRun cfg id s) (e : Oracle × Event)
    (hd : s.halted = false → s.remembers cfg id e.2 = true) :
    VRun cfg id (step cfg id s e) := by
  unfold step
  by_cases hh : s.halted = true
  · rw [if_pos hh]
    exact hs
  rw [if_neg hh]
  have hh : s.halted = false := by simpa using hh
  have hrest : VRest cfg id { s with oracle := e.1 } := (hs.running hh).of_eq rfl rfl rfl rfl
  obtain ⟨h1, h2⟩ := (handle_vinv hid hrest e.2 (hd hh)).result
  cases hr : handle cfg id e.2 { s with oracle := e.1 } with
  | mk o t =>
    rw [hr] at h1 h2
    cases o with
    | some a => exact ⟨(h1 a rfl).agreed, fun _ => h1 a rfl⟩
    | none => exact ⟨h2 rfl, nofun⟩

/-- The steps of the run of `es` from `s`, as far as the replica has not stopped, are taken where
`remembers` holds. -/
def Remembering (cfg : Cfg) (id : Nat) : Replica → List (Oracle × Event) → Prop :=
  Run.Meets (fun s e => some (step cfg id s e)) fun s e => s.halted = false →
    s.remembers cfg id e.2 = true

theorem run_vrun (hid : id < cfg.n) (es : List (Oracle × Event)) (hs : VRun cfg id s)
    (hes : Remembering cfg id s es) :
    VRun cfg id (run cfg id s es) := by
  induction es generalizing s with
  | nil => exact hs
  | cons e es ih => exact ih (step_vrun hid hs e hes.1) (hes.2 _ rfl)

/-- **A replica votes once.** In a run in which nothing that it voted for is forgotten, no two
prepares that it sends to all replicas have one view and sequence number and two digests. -/
theorem run_votes_once (hid : id < cfg.n) (mem : Mem) (es : List (Oracle × Event))
    (hes : Remembering cfg id (new cfg id mem) es) (p p' : Prepare)
    (hp : (none, .prepare p) ∈ (run cfg id (new cfg id mem) es).sent)
    (hp' : (none, .prepare p') ∈ (run cfg id (new cfg id mem) es).sent) (hv : p.view = p'.view)
    (hn : p.seqno = p'.seqno) :
    p.digest = p'.digest :=
  (run_vrun hid es ⟨(vinv_new mem).agreed, fun _ => vinv_new mem⟩ hes).agreed
    p (mem_votes.2 hp) p' (mem_votes.2 hp') hv hn

/-- Two pre-prepares of the primary for sequence number 1, and prepares of the others that match the
second. -/
def firstPrePrepare : PrePrepareMsg := ⟨0, 1, 5, []⟩
def secondPrePrepare : PrePrepareMsg := ⟨0, 1, 6, [1]⟩

def prepareOf (i : Nat) : Event := .prepare ⟨0, 1, 6, i, false⟩ true
def prePrepare (m : PrePrepareMsg) : Event := .prePrepare m true true true

/-- The run of replica 1, a backup of view 0. -/
def runBackup (es : List Event) : Replica :=
  run fourReplicas 1 (new fourReplicas 1 fun _ => []) (es.map fun e => (Oracle.none, e))

/-- The first pre-prepare comes too late, also after an exchange of keys. -/
def firstTooLate : List Event := [prepareOf 2, prePrepare secondPrePrepare,
      .newKey, prePrepare firstPrePrepare, prePrepare secondPrePrepare]

theorem run_votes_once_tooLate :
    (runBackup firstTooLate).votes = [⟨0, 1, 6, 1, false⟩] ∧
      ∀ p p', (none, .prepare p) ∈ (runBackup firstTooLate).sent →
        (none, .prepare p') ∈ (runBackup firstTooLate).sent →
        p.view = p'.view → p.seqno = p'.seqno → p.digest = p'.digest := by
  have hes : Remembering fourReplicas 1 (new fourReplicas 1
    fun _ => []) (firstTooLate.map fun e => (Oracle.none, e)) := by
    unfold Remembering
    decide +kernel
  exact ⟨by decide +kernel, @run_votes_once fourReplicas 1 (by decide) (fun _ => []) _ hes⟩

/-- The prepares of the others come before the first pre-prepare, which they contradict, and then
keys are exchanged. -/
def firstInDispute : List Event :=
  [prepareOf 2, prepareOf 3, prePrepare firstPrePrepare, .newKey, prePrepare secondPrePrepare]

/-- The backup sends two prepares for sequence number 1. -/
theorem votes_twice :
    (runBackup firstInDispute).votes = [⟨0, 1, 6, 1, false⟩, ⟨0, 1, 5, 1, false⟩] ∧
      ¬∀ p p', (none, .prepare p) ∈ (runBackup firstInDispute).sent →
        (none, .prepare p') ∈ (runBackup firstInDispute).sent →
        p.view = p'.view → p.seqno = p'.seqno → p.digest = p'.digest := by
  have h : (runBackup firstInDispute).votes = [⟨0, 1, 6, 1, false⟩, ⟨0, 1, 5, 1, false⟩] := by
    decide +kernel
  refine ⟨h, fun hall => ?_⟩
  have := hall ⟨0, 1, 6, 1, false⟩ ⟨0, 1, 5, 1,
    false⟩ (mem_votes.1 (by rw [h]; decide)) (mem_votes.1 (by rw [h]; decide)) rfl rfl
  exact absurd this (by decide)

end Replica

end TinyBFT
