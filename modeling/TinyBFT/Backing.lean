import TinyBFT.ViewSources
import TinyBFT.Locks

/-!
# What the votes of a replica rest on

A replica that follows the code sends a prepare only for a pre-prepare of the primary, or for what
the new-view message of the primary picks (`Motive`), and its certificates count prepares of
distinct backups that it has sent or heard (`Ledgered`). The primary announces one new-view message
for a view, and what it creates in the view agrees with the message (`Record.picked`). `Record` is
about what has happened, and holds also where a handler stops; `Honest` is about the state between
the steps of a handler, and `Awaiting` about a view in which nothing was announced or created yet.

A commit that a replica sends to all rests on a certificate that was complete, and what it executes
as committed has the commits of `2f + 1` replicas (`Pledges`). This is about logs that start below
`2 ^ 31`, as what the slots hold is (`Locked`).

`Heard` is what the replica has been given by messages that verified. It is a parameter here; who
can have sent these messages is a matter of the network.
-/

namespace TinyBFT

/-- What a replica has been given by messages that verified. -/
structure Heard where
  prepare : Prepare → Prop
  commit : Commit → Prop
  prePrepare : PrePrepareMsg → Prop
  newView : NewView → Prop
  viewChange : ViewChange → Prop
  /-- Replica `k` has been in view `v` or a later one. -/
  reached : Nat → Int → Prop
  earlier : ∀ k v w, w ≤ v → reached k v → reached k w

/-- `H'` has heard what `H` has. -/
structure Heard.Le (H H' : Heard) : Prop where
  prepare : ∀ p, H.prepare p → H'.prepare p
  commit : ∀ c, H.commit c → H'.commit c
  prePrepare : ∀ m, H.prePrepare m → H'.prePrepare m
  newView : ∀ nv, H.newView nv → H'.newView nv
  viewChange : ∀ vc, H.viewChange vc → H'.viewChange vc
  reached : ∀ k v, H.reached k v → H'.reached k v

namespace Replica

open Prog (Ensures Reaches Within Always Composes Holds get modify assert ofOption when each)
open ViewInfo (pnvOuts Fair)
open PreparedCert (Blank Calm Sane Lasting)
open Certificate (AllVals Counts)

variable (cfg : Cfg) (id : Nat) (H : Heard)

/-- The view-changes that the replica has received or sent. -/
def Known (s : Replica) (vc : ViewChange) : Prop :=
  H.viewChange vc ∨ (none, .viewChange vc) ∈ s.sent

/-- Why a replica votes: for a pre-prepare, or for what a new-view message picks. -/
def Motive (s : Replica) (p : Prepare) : Prop :=
  (∃ m, H.prePrepare m ∧ m.view = p.view ∧ m.seqno = p.seqno ∧ m.digest = p.digest) ∨
    ∃ nv, H.newView nv ∧ nv.v = p.view ∧ nv.Picks cfg (Known H s) p.seqno p.digest

/-- The prepare of a backup, sent by the replica itself or heard. -/
structure Voter (votes : List Prepare) (p : Prepare) : Prop where
  lt : p.id < cfg.n
  backup : p.id ≠ cfg.primary p.view
  own : p.id = id → p ∈ votes
  heard : p.id ≠ id → H.prepare p

/-- `2f` backups voted for the digest, and at least one. -/
def Backed (votes : List Prepare) (v n : Int) (d : Digest) : Prop :=
  ∃ L : List Prepare, (L.map Prepare.id).Nodup ∧ 2 * cfg.f ≤ L.length ∧ 0 < L.length ∧
    ∀ p ∈ L, Voter cfg id H votes p ∧ p.view = v ∧ p.seqno = n ∧ p.digest = d

/-- What a certificate counts, and the pre-prepare that it has. -/
def Ledgered (votes : List Prepare) (pps : PrePrepareMsg → Prop) (c : PreparedCert) : Prop :=
  (∀ m, c.pp = some m → pps m) ∧ Counts (cfg.env id) (Voter cfg id H votes) (2 * cfg.f) c.pc

/-- The replica has created the pre-prepare, as primary. -/
def Issued (s : Replica) (m : PrePrepareMsg) : Prop := ∃ c ∈ s.created, c.1 = m

/-- No pre-prepare in a certificate is of a later view, and of the current view the primary has
those that it created. -/
def Logged (s : Replica) (m : PrePrepareMsg) : Prop :=
  m.view ≤ s.v ∧ (m.view = s.v → cfg.primary s.v = id → Issued s m)

/-- What has happened. -/
structure Record (s : Replica) : Prop where
  agreed : s.Agreed
  motive : ∀ p ∈ s.votes, p.id = id ∧ cfg.primary p.view ≠ id ∧ Motive cfg H s p
  /-- A prepare that goes to one replica was sent to all, or is for a view that this one has
  left. -/
  proofs : ∀ k p, (some k, .prepare p) ∈ s.sent → p ∈ s.votes ∨
    p.extra = true ∧ H.reached k (p.view + 1)
  /-- A pre-prepare of a view in which the replica is the primary was created by it, or goes to one
  that has left the view. -/
  issued : ∀ dest m, (dest, .prePrepare m) ∈ s.sent → cfg.primary m.view = id →
    Issued s m ∨ ∃ k, dest = some k ∧ H.reached k (m.view + 1)
  news : ∀ dest nv, (dest, .newView nv) ∈ s.sent → (none, .newView nv) ∈ s.sent
  once : ∀ nv nv', (none, .newView nv) ∈ s.sent → (none, .newView nv') ∈ s.sent →
    nv.v = nv'.v → nv = nv'
  /-- What was created for a sequence number that a new-view message is about is what the message
  picks. -/
  picked : ∀ c ∈ s.created, ∀ nv, (none, .newView nv) ∈ s.sent →
    nv.v = c.1.view → nv.min < c.1.seqno → c.1.seqno < nv.max →
    nv.Picks cfg (Known H s) c.1.seqno c.1.digest
  committed : ∀ pp ∈ s.committed, Backed cfg id H s.votes pp.view pp.seqno pp.digest

/-- What the commits of the replica rest on. -/
structure Pledges (s : Replica) : Prop where
  commits : ∀ c, (none, .commit c) ∈ s.sent → c.id = id ∧ ∃ d,
    Backed cfg id H s.votes c.view c.seqno d
  resent : ∀ k c, (some k, .commit c) ∈ s.sent → (none, .commit c) ∈ s.sent
  certified : ∀ pp ∈ s.committed, Certified cfg id H.commit s.sent pp.view pp.seqno

/-- What the commits rest on, and the logs that count them. -/
structure Pledged (s : Replica) : Prop extends Pledges cfg id H s where
  locked : Locked cfg id H.commit s

/-- What the parts of the state rest on. -/
structure Rooted (s : Replica) : Prop extends Record cfg id H s where
  vi : ViewInfo.Sourced cfg id (Known H s) H.newView H.reached s.v s.vi
  certs : ∀ k, Ledgered cfg id H s.votes (Logged cfg id s) (s.plog.elems k)
  views : ∀ c ∈ s.created, c.1.view ≤ s.v
  newViews : ∀ nv, (none, .newView nv) ∈ s.sent → nv.v ≤ s.v

/-- In the current view the replica has announced its new view, if it is the primary and has one. -/
structure Honest (s : Replica) : Prop extends Rooted cfg id H s where
  fresh : s.v ≠ 0 → s.vi.hasNewView cfg s.v = false → ∀ c ∈ s.created, c.1.view ≠ s.v
  told : ∀ nv, nv.v = s.v →
    ((none, .newView nv) ∈ s.sent ↔ cfg.primary s.v = id ∧
      s.vi.hasNewView cfg s.v = true ∧ (s.vi.lastNvs id).nv = some nv)
  closed : cfg.primary s.v = id → s.vi.hasNewView cfg s.v = true → (s.vi.lastNvs id).nvSent = true
  above : ∀ nv, (none, .newView nv) ∈ s.sent → nv.v = s.v → nv.max ≤ s.seqno + 1

/-- Nothing was created or announced in the current view. -/
structure Awaiting (s : Replica) : Prop extends Rooted cfg id H s where
  fresh : ∀ c ∈ s.created, c.1.view ≠ s.v
  untold : ∀ nv, (none, .newView nv) ∈ s.sent → nv.v ≠ s.v

/-- Nothing that has happened gets lost, and views and windows only move up. -/
structure Grows (s t : Replica) : Prop where
  sent : ∀ o ∈ s.sent, o ∈ t.sent
  created : ∀ c ∈ s.created, c ∈ t.created
  committed : ∀ pp ∈ s.committed, pp ∈ t.committed
  v : s.v ≤ t.v
  head : s.plog.head ≤ t.plog.head

/-- Inside a handler, in view `v`; a commit is due for the sequence number `k`. -/
structure HInv (r : Int → Prop) (k : Option Int) (q : Nat) (v : Int) (base s : Replica) : Prop where
  votes : VInv cfg id r q s
  honest : Honest cfg id H s
  pledged : s.Unwrapped → Pledged cfg id H s
  ready : s.Unwrapped → ∀ n ∈ k, Ready cfg s n
  v : s.v = v
  since : Grows base s

/-- A `process_new_view` is due. -/
structure HDue (r : Int → Prop) (q : Nat) (v : Int) (base s : Replica) : Prop where
  votes : VDue cfg id r q s
  awaiting : Awaiting cfg id H s
  pledged : s.Unwrapped → Pledged cfg id H s
  v : s.v = v
  since : Grows base s

/-- Where a handler stops. -/
structure HRest (base s : Replica) : Prop where
  record : Record cfg id H s
  pledges : s.Unwrapped → Pledges cfg id H s
  since : Grows base s

variable {cfg id H} {r : Int → Prop} {k : Option Int} {q : Nat} {v : Int}
    {base s t u : Replica} {α : Type}
  {h : NVCall → Prog Replica Unit} {n : Int}

theorem HInv.rest (hs : HInv cfg id H r k q v base s) : HRest cfg id H base s :=
  ⟨hs.honest.toRecord, fun h => (hs.pledged h).toPledges, hs.since⟩

theorem HDue.rest (hs : HDue cfg id H r q v base s) : HRest cfg id H base s :=
  ⟨hs.awaiting.toRecord, fun h => (hs.pledged h).toPledges, hs.since⟩

theorem HInv.weaken {r' : Int → Prop} (hs : HInv cfg id H r k q v base s) (hr : ∀ n, r' n → r n) :
    HInv cfg id H r' k q v base s :=
  ⟨hs.votes.weaken hr, hs.honest, hs.pledged, hs.ready, hs.v, hs.since⟩

/-! ## What has happened has happened -/

theorem Grows.refl : Grows s s := ⟨fun _ h => h, fun _ h => h, fun _ h => h, le_rfl, le_rfl⟩

theorem Grows.trans (h : Grows s t) (h' : Grows t u) : Grows s u :=
  ⟨fun o ho => h'.sent o (h.sent o ho), fun c hc => h'.created c (h.created c hc),
    fun pp hp => h'.committed pp (h.committed pp hp), h.v.trans h'.v,
    h.head.trans h'.head⟩

theorem Grows.of_eq (hsent : t.sent = s.sent) (hc : t.created = s.created)
    (hd : t.committed = s.committed) (hv : s.v ≤ t.v)
    (hhead : s.plog.head ≤ t.plog.head) : Grows s t :=
  ⟨fun _ h => hsent ▸ h, fun _ h => hc ▸ h, fun _ h => hd ▸ h, hv, hhead⟩

theorem Grows.keep (h : Grows base s) (hsent : t.sent = s.sent) (hc : t.created = s.created)
    (hd : t.committed = s.committed) (hv : s.v ≤ t.v) (hhead : s.plog.head ≤ t.plog.head) :
    Grows base t := h.trans (.of_eq hsent hc hd hv hhead)

theorem grows_cons (o : Option Nat × Msg) : Grows s { s with sent := o :: s.sent } :=
  ⟨fun _ ho => List.mem_cons_of_mem o ho, fun _ h => h, fun _ h => h, le_rfl, le_rfl⟩

theorem Grows.unwrapped (hg : Grows s t) (ht : t.Unwrapped) : s.Unwrapped :=
  lt_of_le_of_lt hg.head ht

theorem Grows.votes (hg : Grows s t) : ∀ p ∈ s.votes, p ∈ t.votes :=
  fun _ hp => mem_votes.2 (hg.sent _ (mem_votes.1 hp))

theorem Grows.known (hg : Grows s t) {vc : ViewChange} (h : Known H s vc) : Known H t vc :=
  h.imp (fun h => h) (hg.sent _)

theorem Issued.mono (hg : Grows s t) {m : PrePrepareMsg} : Issued s m → Issued t m :=
  fun ⟨c, hc, hm⟩ => ⟨c, hg.created c hc, hm⟩

theorem Logged.mono (hg : Grows s t) {m : PrePrepareMsg} (h : Logged cfg id s m) :
    Logged cfg id t m := by
  refine ⟨h.1.trans hg.v, fun hv hp => ?_⟩
  have hvs : m.view = s.v := le_antisymm h.1 (hv ▸ hg.v)
  exact (h.2 hvs (by rw [← hvs, hv]; exact hp)).mono hg

/-- From some state on. -/
theorem HInv.since_start (hs : HInv cfg id H r k q v base s) : HInv cfg id H r k q v s s :=
  ⟨hs.votes, hs.honest, hs.pledged, hs.ready, hs.v, .refl⟩

theorem HInv.since_before (ht : HInv cfg id H r k q v s t) (hs : Grows base s) :
    HInv cfg id H r k q v base t :=
  ⟨ht.votes, ht.honest, ht.pledged, ht.ready, ht.v, hs.trans ht.since⟩

theorem HRest.since_before (ht : HRest cfg id H s t) (hs : Grows base s) : HRest cfg id H base t :=
  ⟨ht.record, ht.pledges, hs.trans ht.since⟩

/-- No commit is due. -/
theorem HInv.idle (hs : HInv cfg id H r k q v base s) : HInv cfg id H r none q v base s :=
  ⟨hs.votes, hs.honest, hs.pledged, fun _ _ hn => (by cases hn), hs.v, hs.since⟩

/-- A commit is due only where the window has not wrapped. -/
theorem HInv.resume (hs : HInv cfg id H r none q v base s) (hk : s.Unwrapped → k = none) :
    HInv cfg id H r k q v base s :=
  ⟨hs.votes, hs.honest, hs.pledged, fun hu n hn => (by rw [hk hu] at hn; cases hn), hs.v, hs.since⟩

theorem Motive.mono (hg : Grows s t) {p : Prepare} (h : Motive cfg H s p) : Motive cfg H t p :=
  h.imp (fun h => h) fun ⟨nv, h1, h2, h3⟩ => ⟨nv, h1, h2, h3.mono fun _ => hg.known⟩

theorem Voter.mono {votes votes' : List Prepare} (hv : ∀ p ∈ votes, p ∈ votes') {p : Prepare}
    (h : Voter cfg id H votes p) :
    Voter cfg id H votes' p := ⟨h.lt, h.backup, fun hp => hv p (h.own hp), h.heard⟩

theorem Backed.mono {votes votes' : List Prepare} (hv : ∀ p ∈ votes, p ∈ votes')
    {w m : Int} {d : Digest} (h : Backed cfg id H votes w m d) : Backed cfg id H votes' w m d := by
  obtain ⟨L, h1, h2, h3, h4⟩ := h
  exact ⟨L, h1, h2, h3, fun p hp => ⟨(h4 p hp).1.mono hv, (h4 p hp).2⟩⟩

theorem Ledgered.mono {votes votes' : List Prepare} {pps pps' : PrePrepareMsg → Prop}
    (hv : ∀ p ∈ votes, p ∈ votes') (hm : ∀ m, pps m → pps' m) {c : PreparedCert}
    (h : Ledgered cfg id H votes pps c) : Ledgered cfg id H votes' pps' c :=
  ⟨fun m hpp => hm m (h.1 m hpp), h.2.mono fun _ => Voter.mono hv⟩

/-! ## Certificates -/

section Certificates

variable {ps : List Prepare} {pps : PrePrepareMsg → Prop} {c c' : PreparedCert}

theorem ledgered_new : Ledgered cfg id H ps pps (PreparedCert.new (cfg.env id)) := by
  refine ⟨nofun, Certificate.counts_new ?_⟩
  change 2 * cfg.f ≤ if 2 * cfg.f = 0 then 2 * (cfg.env id).f + 1 else 2 * cfg.f
  split <;> omega

theorem Ledgered.of_pc (h : Ledgered cfg id H ps pps c) (hpc : c'.pc = c.pc)
    (hpp : ∀ m, c'.pp = some m → pps m) :
    Ledgered cfg id H ps pps c' := by
  unfold Ledgered
  rw [hpc]
  exact ⟨hpp, h.2⟩

theorem Ledgered.addMinePrePrepare {m : PrePrepareMsg} (h : Ledgered cfg id H ps pps c)
    (hc : c.addMinePrePrepare (cfg.env id) m = some c') (hm : pps m) :
    Ledgered cfg id H ps pps c' := by
  unfold PreparedCert.addMinePrePrepare at hc
  split at hc <;> cases hc
  exact h.of_pc rfl fun m' hm' => Option.some.inj hm' ▸ hm

theorem Ledgered.addOld {m : PrePrepareMsg} (h : Ledgered cfg id H ps pps c)
    (hc : c.addOld m = some c') (hm : pps m) :
    Ledgered cfg id H ps pps c' := by
  unfold PreparedCert.addOld at hc
  split at hc <;> cases hc
  exact h.of_pc rfl fun m' hm' => Option.some.inj hm' ▸ hm

theorem Ledgered.clear (h : Ledgered cfg id H ps pps c) : Ledgered cfg id H ps pps c.clear :=
  ⟨nofun, h.2.clear⟩

theorem Ledgered.markStale {isPrimary : Bool} (h : Ledgered cfg id H ps pps c)
    (hc : c.markStale isPrimary = some c') :
    Ledgered cfg id H ps pps c' := by
  rcases PreparedCert.markStale_cases hc with ⟨-, rfl⟩ | ⟨-, pc, hpc, rfl⟩
  · exact h
  refine ⟨fun m hm => h.1 m ?_, h.2.markStale hpc⟩
  dsimp only at hm
  split at hm
  · exact hm
  · cases hm

/-- The prepare of another backup. -/
theorem Ledgered.add {p : Prepare} {verify b : Bool} (h : Ledgered cfg id H ps pps c)
    (hc : c.add (cfg.env id) p verify = some (c', b))
    (hp : verify = true → p.id < cfg.n → p.id ≠ id → Voter cfg id H ps p) :
    Ledgered cfg id H ps pps c' := by
  obtain ⟨pc, hpc, rfl⟩ := PreparedCert.add_cases hc
  exact ⟨h.1, h.2.add hpc hp⟩

/-- The own prepare. -/
theorem Ledgered.addMine {p : Prepare} {b : Bool} (h : Ledgered cfg id H ps pps c)
    (hc : c.addMine (cfg.env id) p = some (c', b)) (hmine : c.myPrepare = none)
    (hp : Voter cfg id H ps p) : Ledgered cfg id H ps pps c' := by
  obtain ⟨-, pc, hpc, rfl⟩ := PreparedCert.addMine_cases hc
  exact ⟨h.1, h.2.addMine hpc hmine hp⟩

/-- The own prepare in a certificate was sent. -/
theorem Ledgered.mine {p : Prepare} (h : Ledgered cfg id H ps pps c)
    (hp : c.myPrepare = some p) : p ∈ ps :=
  have ⟨hvoter, hid⟩ := h.2.mine hp
  hvoter.own hid

/-- **A complete certificate** is backed. -/
theorem Ledgered.backed (h : Ledgered cfg id H ps pps c) (hc : c.isComplete = some true) :
    ∃ m, c.pp = some m ∧ Backed cfg id H ps m.view m.seqno m.digest := by
  obtain ⟨m, cv, hm, hcomp, hcv, hmatch⟩ := PreparedCert.isComplete_correct hc
  unfold PrePrepareMsg.matchPrepare at hmatch
  split at hmatch
  swap
  · cases hmatch
  rename_i hview
  have hd : m.digest = cv.digest := by simpa using hmatch
  obtain ⟨L, h1, h2, h3, h4⟩ := h.2.quorum hcomp hcv
  refine ⟨m, hm, L, h1, h2, h3, fun p hp => ?_⟩
  obtain ⟨hvoter, hp⟩ := h4 p hp
  obtain ⟨hv, hn, hd'⟩ := Certificate.matches_prepare.1 hp
  exact ⟨hvoter, hv.symm.trans hview.1.symm, hn.symm.trans hview.2.symm, hd'.symm.trans hd.symm⟩

end Certificates

/-! ## Steps beside the logs -/

theorem Pledges.extend (hs : Pledges cfg id H s) (hsent : ∀ o ∈ s.sent, o ∈ t.sent)
    (hcommits : ∀ c, (none, .commit c) ∈ t.sent → (none, .commit c) ∈ s.sent ∨ c.id = id ∧ ∃ d,
      Backed cfg id H s.votes c.view c.seqno d)
    (hresent : ∀ j c, (some j, .commit c) ∈ t.sent →
      (some j, .commit c) ∈ s.sent ∨ (none, .commit c) ∈ s.sent)
    (hcommitted : ∀ pp ∈ t.committed, pp ∈ s.committed ∨
      Certified cfg id H.commit s.sent pp.view pp.seqno) : Pledges cfg id H t where
  commits c hc := by
    obtain ⟨hid, d, hd⟩ := (hcommits c hc).elim (hs.commits c) fun h => h
    exact ⟨hid, d, hd.mono fun p hp => mem_votes.2 (hsent _ (mem_votes.1 hp))⟩
  resent j c hc := hsent _ ((hresent j c hc).elim (hs.resent j c) fun h => h)
  certified pp hpp := ((hcommitted pp hpp).elim (hs.certified pp) fun h => h).mono hsent

theorem Pledges.of_eq (hs : Pledges cfg id H s) (hsent : t.sent = s.sent)
    (hd : t.committed = s.committed) : Pledges cfg id H t :=
  hs.extend (fun _ h => hsent ▸ h) (fun _ h => .inl (hsent ▸ h)) (fun _ _ h => .inl (hsent ▸ h))
    fun _ h => .inl (hd ▸ h)

theorem Pledges.beside (hs : Pledges cfg id H s) (hb : Beside s t) (hu : s.Unwrapped) :
    Pledges cfg id H t :=
  hs.extend hb.sent (fun c hc => .inl (hb.commits c hc)) (hb.resent hu)
    fun _ hpp => .inl (hb.committed ▸ hpp)

theorem Beside.pledges (hb : Beside s t) (hs : s.Unwrapped → Pledges cfg id H s)
    (ht : t.Unwrapped) : Pledges cfg id H t :=
  have hu := hb.unwrapped ht
  (hs hu).beside hb hu

theorem Beside.pledged (hb : Beside s t) (hs : s.Unwrapped → Pledged cfg id H s)
    (ht : t.Unwrapped) : Pledged cfg id H t :=
  have hu := hb.unwrapped ht
  ⟨(hs hu).toPledges.beside hb hu, hb.locked (hs hu).locked⟩

theorem Beside.due (hb : Beside s t) (hs : s.Unwrapped → ∀ n ∈ k, Ready cfg s n)
    (ht : t.Unwrapped) : ∀ n ∈ k, Ready cfg t n :=
  fun n hn => hb.ready (hs (hb.unwrapped ht) n hn)

/-! ## Steps that say nothing new -/

/-- A message that is neither a pre-prepare, prepare or commit nor a new-view message. -/
def Plain : Option Nat × Msg → Prop
  | (_, .prePrepare _) => False
  | (_, .prepare _) => False
  | (_, .commit _) => False
  | (_, .newView _) => False
  | _ => True

/-- Plain messages are sent, `seqno` grows, and what the invariants do not depend on changes. -/
structure Apart (s t : Replica) : Prop where
  v : t.v = s.v
  vi : t.vi = s.vi
  plog : t.plog = s.plog
  clog : t.clog = s.clog
  lastStable : t.lastStable = s.lastStable
  created : t.created = s.created
  committed : t.committed = s.committed
  seqno : s.seqno ≤ t.seqno
  sent : ∃ l, t.sent = l ++ s.sent ∧ ∀ o ∈ l, Plain o

theorem Apart.refl : Apart s s :=
  ⟨rfl, rfl, rfl, rfl, rfl, rfl, rfl, le_rfl, [], rfl, fun _ ho => (List.not_mem_nil ho).elim⟩

theorem Apart.trans (h : Apart s t) (h' : Apart t u) : Apart s u := by
  obtain ⟨l, hl, hp⟩ := h.sent
  obtain ⟨l', hl', hp'⟩ := h'.sent
  refine ⟨h'.v.trans h.v, h'.vi.trans h.vi, h'.plog.trans h.plog,
    h'.clog.trans h.clog, h'.lastStable.trans h.lastStable,
    h'.created.trans h.created, h'.committed.trans h.committed, h.seqno.trans h'.seqno, l' ++ l, by
      rw [hl', hl, List.append_assoc], fun o ho => ?_⟩
  exact (List.mem_append.1 ho).elim (hp' o) (hp o)

instance : IsPreorder Replica Apart where
  refl _ := .refl
  trans _ _ _ := .trans

/-- Neither a message is sent, nor does a field change that the invariants are about. -/
theorem Apart.of_eq (hv : t.v = s.v) (hvi : t.vi = s.vi) (hplog : t.plog = s.plog)
    (hclog : t.clog = s.clog) (hls : t.lastStable = s.lastStable)
    (hc : t.created = s.created) (hd : t.committed = s.committed) (hseq : s.seqno ≤ t.seqno)
    (hsent : t.sent = s.sent) : Apart s t :=
  ⟨hv, hvi, hplog, hclog, hls, hc, hd, hseq, [], hsent, fun _ ho => (List.not_mem_nil ho).elim⟩

theorem Apart.grows (h : Apart s t) : Grows s t := by
  obtain ⟨l, hl, -⟩ := h.sent
  exact ⟨fun o ho => hl ▸ List.mem_append_right l ho,
    fun _ hc => h.created ▸ hc, fun _ hc => h.committed ▸ hc, h.v.ge, by rw [h.plog]⟩

theorem Apart.of_mem (h : Apart s t) {o : Option Nat × Msg} (ho : o ∈ t.sent) (hp : ¬Plain o) :
    o ∈ s.sent := by
  obtain ⟨l, hl, hplain⟩ := h.sent
  rw [hl] at ho
  exact (List.mem_append.1 ho).resolve_left fun hm => hp (hplain o hm)

theorem Apart.beside (h : Apart s t) : Beside s t :=
  ⟨h.v, h.plog, h.clog, h.committed, h.grows.sent,
    fun _ hc => h.of_mem hc fun hp => hp, fun _ _ _ hc => .inl (h.of_mem hc fun hp => hp)⟩

theorem Apart.votes (h : Apart s t) : t.votes = s.votes := by
  obtain ⟨l, hl, hp⟩ := h.sent
  have hnone : l.filterMap vote = [] := by
    refine List.filterMap_eq_nil_iff.2 fun o ho => ?_
    obtain ⟨dest, m⟩ := o
    have := hp _ ho
    cases dest with
    | some k => rfl
    | none => cases m <;> first | rfl | exact this.elim
  simp [Replica.votes, hl, hnone]

/-- The votes are the same, and what is new is in order. -/
theorem Record.extend (hs : Record cfg id H s) (hg : Grows s t) (hvotes : t.votes = s.votes)
    (hproofs : ∀ k p, (some k, .prepare p) ∈ t.sent →
      (some k, .prepare p) ∈ s.sent ∨ p ∈ s.votes ∨ p.extra = true ∧ H.reached k (p.view + 1))
    (hissued : ∀ dest m, (dest, .prePrepare m) ∈ t.sent → (dest, .prePrepare m) ∈ s.sent ∨
      (cfg.primary m.view = id → Issued s m ∨ ∃ k, dest = some k ∧ H.reached k (m.view + 1)))
    (hnews : ∀ dest nv, (dest, .newView nv) ∈ t.sent → (none, .newView nv) ∈ s.sent)
    (hcreated : ∀ c ∈ t.created, c ∈ s.created ∨ ∀ nv,
      (none, .newView nv) ∈ s.sent → nv.v = c.1.view → nv.min < c.1.seqno →
      c.1.seqno < nv.max → nv.Picks cfg (Known H s) c.1.seqno c.1.digest)
    (hcommitted : ∀ pp ∈ t.committed, pp ∈ s.committed ∨
      Backed cfg id H s.votes pp.view pp.seqno pp.digest) : Record cfg id H t where
  agreed := by
    rw [Agreed, hvotes]
    exact hs.agreed
  motive p hp := by
    obtain ⟨h1, h2, h3⟩ := hs.motive p (hvotes ▸ hp)
    exact ⟨h1, h2, h3.mono hg⟩
  proofs k p hp := by
    rw [hvotes]
    exact (hproofs k p hp).elim (hs.proofs k p) fun h => h
  issued dest m hm hp :=
    (((hissued dest m hm).elim (hs.issued dest m) fun h => h) hp).imp (Issued.mono hg) fun h => h
  news dest nv hnv := hg.sent _ (hnews dest nv hnv)
  once nv nv' hnv hnv' := hs.once nv nv' (hnews none nv hnv) (hnews none nv' hnv')
  picked c hc nv hnv hv hlo hhi := by
    refine NewView.Picks.mono ?_ fun _ => hg.known
    rcases hcreated c hc with hc | hc
    · exact hs.picked c hc nv (hnews none nv hnv) hv hlo hhi
    · exact hc nv (hnews none nv hnv) hv hlo hhi
  committed pp hpp := by
    rw [hvotes]
    exact (hcommitted pp hpp).elim (hs.committed pp) fun h => h

theorem Rooted.extend (hs : Rooted cfg id H s) (hr : Record cfg id H t) (hg : Grows s t)
    (hv : t.v = s.v) (hvi : t.vi = s.vi)
    (hcerts : ∀ k, Ledgered cfg id H t.votes (Logged cfg id t) (t.plog.elems k))
    (hviews : ∀ c ∈ t.created, c ∈ s.created ∨ c.1.view = s.v)
    (hnews : ∀ nv, (none, .newView nv) ∈ t.sent → (none, .newView nv) ∈ s.sent) :
    Rooted cfg id H t where
  toRecord := hr
  vi := by
    rw [hv, hvi]
    exact hs.vi.mono (fun _ => hg.known) (fun _ h => h) fun _ _ h => h
  certs := hcerts
  views c hc := by
    rw [hv]
    exact (hviews c hc).elim (hs.views c) fun h => h.le
  newViews nv hnv := by
    rw [hv]
    exact hs.newViews nv (hnews nv hnv)

theorem Honest.extend (hs : Honest cfg id H s) (hr : Rooted cfg id H t) (hg : Grows s t)
    (hv : t.v = s.v) (hvi : t.vi = s.vi)
    (hcreated : ∀ c ∈ t.created, c ∈ s.created ∨ s.v = 0 ∨ s.vi.hasNewView cfg s.v = true)
    (hnews : ∀ nv, (none, .newView nv) ∈ t.sent → (none, .newView nv) ∈ s.sent)
    (hseq : s.seqno ≤ t.seqno) : Honest cfg id H t where
  toRooted := hr
  fresh h0 hno c hc := by
    rw [hv] at h0 hno ⊢
    rw [hvi] at hno
    rcases hcreated c hc with hc | hz | hnew
    · exact hs.fresh h0 hno c hc
    · exact absurd hz h0
    · rw [hno] at hnew
      cases hnew
  told nv hnv := by
    rw [hv] at hnv ⊢
    rw [hvi]
    exact ⟨fun hm => (hs.told nv hnv).1 (hnews nv hm), fun hm => hg.sent _ ((hs.told nv hnv).2 hm)⟩
  closed := by
    rw [hv, hvi]
    exact hs.closed
  above nv hnv hv' := by
    have := hs.above nv (hnews nv hnv) (hv ▸ hv')
    omega

theorem Awaiting.extend (hs : Awaiting cfg id H s) (hr : Rooted cfg id H t) (hv : t.v = s.v)
    (hcreated : ∀ c ∈ t.created, c ∈ s.created)
    (hnews : ∀ nv, (none, .newView nv) ∈ t.sent → (none, .newView nv) ∈ s.sent) :
    Awaiting cfg id H t where
  toRooted := hr
  fresh c hc := by
    rw [hv]
    exact hs.fresh c (hcreated c hc)
  untold nv hnv := by
    rw [hv]
    exact hs.untold nv (hnews nv hnv)

theorem Apart.news (h : Apart s t) {dest : Option Nat} {nv : NewView}
    (hnv : (dest, .newView nv) ∈ t.sent) : (dest, .newView nv) ∈ s.sent :=
  h.of_mem hnv fun hp => hp

theorem Apart.record (h : Apart s t) (hs : Record cfg id H s) : Record cfg id H t :=
  hs.extend h.grows h.votes (fun _ _ hp => .inl (h.of_mem hp fun hp => hp))
    (fun _ _ hm => .inl (h.of_mem hm fun hp => hp))
    (fun dest nv hnv => hs.news dest nv (h.news hnv))
    (fun _ hc => .inl (h.created ▸ hc)) fun _ hpp => .inl (h.committed ▸ hpp)

theorem Apart.rooted (h : Apart s t) (hs : Rooted cfg id H s) : Rooted cfg id H t :=
  hs.extend (h.record hs.toRecord) h.grows h.v h.vi
    (fun k => by
        rw [h.plog, h.votes]; exact (hs.certs k).mono (fun _ hp => hp) fun _ => Logged.mono h.grows)
      (fun _ hc => .inl (h.created ▸ hc))
    fun _ hnv => h.news hnv

theorem Apart.honest (h : Apart s t) (hs : Honest cfg id H s) : Honest cfg id H t :=
  hs.extend (h.rooted hs.toRooted) h.grows h.v h.vi (fun _ hc => .inl (h.created ▸ hc))
    (fun _ hnv => h.news hnv) h.seqno

theorem Apart.awaiting (h : Apart s t) (hs : Awaiting cfg id H s) : Awaiting cfg id H t :=
  hs.extend (h.rooted hs.toRooted) h.v (fun _ hc => h.created ▸ hc) fun _ hnv => h.news hnv

theorem Apart.calmly (h : Apart s t) : Calmly cfg s t :=
  ⟨h.v, h.vi, h.votes, by rw [h.plog], fun n => by rw [cert, cert, h.plog]; exact .refl⟩

theorem Apart.hinv (h : Apart s t) (hs : HInv cfg id H r k q v base s) :
    HInv cfg id H r k q v base t :=
  ⟨h.calmly.inv hs.votes, h.honest hs.honest, h.beside.pledged hs.pledged,
    h.beside.due hs.ready, h.v.trans hs.v, hs.since.trans h.grows⟩

theorem Apart.hdue (h : Apart s t) (hs : HDue cfg id H r q v base s) : HDue cfg id H r q v base t :=
  ⟨⟨h.calmly.inv hs.votes.inv, hs.votes.none⟩, h.awaiting hs.awaiting,
    h.beside.pledged hs.pledged, h.v.trans hs.v, hs.since.trans h.grows⟩

theorem Apart.hrest (h : Apart s t) (hs : HRest cfg id H base s) : HRest cfg id H base t :=
  ⟨h.record hs.record, h.beside.pledges hs.pledges, hs.since.trans h.grows⟩

/-! ## Messages that are sent again -/

/-- The message is known to all, or is for a view that the receiver has left. -/
def Retransmitted (cfg : Cfg) (id : Nat) (H : Heard) (s : Replica) (dest : Option Nat) : Msg → Prop
  | .prePrepare m => cfg.primary m.view = id → Issued s m ∨ ∃ k,
      dest = some k ∧ H.reached k (m.view + 1)
  | .prepare p => ∃ k, dest = some k ∧ (p ∈ s.votes ∨ p.extra = true ∧ H.reached k (p.view + 1))
  | .newView nv => (none, .newView nv) ∈ s.sent
  | .commit c => ∃ k, dest = some k ∧ (s.Unwrapped → (none, .commit c) ∈ s.sent)
  | _ => True

variable {dest : Option Nat} {m : Msg}

theorem Retransmitted.news (hm : Retransmitted cfg id H s dest m) (hs : Record cfg id H s)
    (dest' : Option Nat) (nv : NewView) (hnv : (dest', .newView nv) ∈ (dest, m) :: s.sent) :
    (none, .newView nv) ∈ s.sent := by
  rcases List.mem_cons.1 hnv with he | hnv
  · cases he
    exact hm
  · exact hs.news dest' nv hnv

theorem Retransmitted.votes (hm : Retransmitted cfg id H s dest m) :
    Replica.votes { s with sent := (dest, m) :: s.sent } = s.votes := by
  have hnone : vote (dest, m) = none := by
    cases m with
    | prepare p =>
      obtain ⟨k, rfl, -⟩ := hm
      rfl
    | _ => cases dest <;> rfl
  simp [Replica.votes, hnone]

theorem Retransmitted.beside (hm : Retransmitted cfg id H s dest m) :
    Beside s { s with sent := (dest, m) :: s.sent } := by
  cases m with
  | commit c =>
    obtain ⟨k, rfl, hc⟩ := hm
    exact beside_resend hc
  | _ => exact beside_cons fun _ _ he => by cases he

theorem Record.send (hs : Record cfg id H s) (hm : Retransmitted cfg id H s dest m) :
    Record cfg id H { s with sent := (dest, m) :: s.sent } := by
  refine hs.extend (grows_cons _) hm.votes (fun k p hp => ?_)
    (fun dest' pp hpp => ?_) (hm.news hs) (fun _ hc => .inl hc) fun _ hpp => .inl hpp
  · rcases List.mem_cons.1 hp with he | hp
    · cases he
      obtain ⟨k', he, hp⟩ := hm
      cases he
      exact .inr hp
    · exact .inl hp
  · rcases List.mem_cons.1 hpp with he | hpp
    · cases he
      exact .inr hm
    · exact .inl hpp

theorem Rooted.send (hs : Rooted cfg id H s) (hm : Retransmitted cfg id H s dest m) :
    Rooted cfg id H { s with sent := (dest, m) :: s.sent } :=
  hs.extend (hs.toRecord.send hm) (grows_cons _) rfl rfl
    (fun k => by rw [hm.votes]; exact hs.certs k) (fun _ hc => .inl hc)
    fun nv hnv => hm.news hs.toRecord none nv hnv

theorem HInv.send (hs : HInv cfg id H r k q v base s) (hm : Retransmitted cfg id H s dest m) :
    HInv cfg id H r k q v base { s with sent := (dest, m) :: s.sent } :=
  ⟨hs.votes.of_eq rfl rfl hm.votes rfl,
    hs.honest.extend (hs.honest.toRooted.send hm) (grows_cons _) rfl rfl (fun _ hc => .inl hc)
    (fun nv hnv => hm.news hs.honest.toRecord none nv hnv) le_rfl,
      hm.beside.pledged hs.pledged, hm.beside.due hs.ready, hs.v,
    hs.since.trans (grows_cons _)⟩

theorem Awaiting.send (hs : Awaiting cfg id H s) (hm : Retransmitted cfg id H s dest m) :
    Awaiting cfg id H { s with sent := (dest, m) :: s.sent } :=
  hs.extend (hs.toRooted.send hm) rfl (fun _ hc => hc) fun nv hnv => hm.news hs.toRecord none nv hnv

theorem HDue.send (hs : HDue cfg id H r q v base s) (hm : Retransmitted cfg id H s dest m) :
    HDue cfg id H r q v base { s with sent := (dest, m) :: s.sent } :=
  ⟨⟨hs.votes.inv.of_eq rfl rfl hm.votes rfl, hs.votes.none⟩,
    hs.awaiting.send hm, hm.beside.pledged hs.pledged, hs.v,
    hs.since.trans (grows_cons _)⟩

theorem HRest.send (hs : HRest cfg id H base s) (hm : Retransmitted cfg id H s dest m) :
    HRest cfg id H base { s with sent := (dest, m) :: s.sent } :=
  ⟨hs.record.send hm, hm.beside.pledges hs.pledges, hs.since.trans (grows_cons _)⟩

/-! ## Steps of the certificates -/

theorem Record.of_eq (hs : Record cfg id H s) (hsent : t.sent = s.sent) (hc : t.created = s.created)
    (hd : t.committed = s.committed) :
    Record cfg id H t :=
  have hg : Grows s { s with sent := t.sent, created := t.created, committed := t.committed } :=
    .of_eq hsent hc hd le_rfl le_rfl
  have hrec : Record cfg id H { s with sent := t.sent, created := t.created,
                                       committed := t.committed } :=
    hs.extend hg (by rw [Replica.votes, hsent, Replica.votes])
      (fun _ _ hp => .inl (hsent ▸ hp)) (fun _ _ hm => .inl (hsent ▸ hm))
      (fun dest nv hnv => hs.news dest nv (hsent ▸ hnv)) (fun _ h => .inl (hc ▸ h))
        fun _ h => .inl (hd ▸ h)
  ⟨hrec.agreed, hrec.motive, hrec.proofs, hrec.issued, hrec.news,
    hrec.once, hrec.picked, hrec.committed⟩

/-- Neither a message is sent, nor does a field change that the invariants are about. -/
theorem Rooted.of_eq (hs : Rooted cfg id H s) (hv : t.v = s.v) (hvi : t.vi = s.vi)
    (hplog : t.plog = s.plog) (hc : t.created = s.created) (hd : t.committed = s.committed)
    (hsent : t.sent = s.sent) : Rooted cfg id H t := by
  have hg : Grows s t := .of_eq hsent hc hd hv.ge (by rw [hplog])
  have hvotes : t.votes = s.votes := by rw [Replica.votes, hsent, Replica.votes]
  refine hs.extend (hs.toRecord.of_eq hsent hc hd) hg hv
    hvi (fun k => ?_) (fun _ h => .inl (hc ▸ h)) fun _ h => hsent ▸ h
  rw [hplog, hvotes]
  exact (hs.certs k).mono (fun _ h => h) fun _ => Logged.mono hg

theorem HRest.of_eq (hs : HRest cfg id H base s) (hv : t.v = s.v) (hplog : t.plog = s.plog)
    (hclog : t.clog = s.clog) (hc : t.created = s.created) (hd : t.committed = s.committed)
    (hsent : t.sent = s.sent) : HRest cfg id H base t :=
  have hb : Beside s t := .of_eq hv hplog hclog hd hsent
  ⟨hs.record.of_eq hsent hc hd, hb.pledges hs.pledges,
    hs.since.keep hsent hc hd hv.ge (by rw [hplog])⟩

theorem HInv.of_eq (hs : HInv cfg id H r k q v base s) (hv : t.v = s.v) (hvi : t.vi = s.vi)
    (hplog : t.plog = s.plog) (hclog : t.clog = s.clog) (hc : t.created = s.created)
    (hd : t.committed = s.committed) (hseq : s.seqno ≤ t.seqno) (hsent : t.sent = s.sent) :
    HInv cfg id H r k q v base t := by
  have hg : Grows s t := .of_eq hsent hc hd hv.ge (by rw [hplog])
  have hb : Beside s t := .of_eq hv hplog hclog hd hsent
  have hvotes : t.votes = s.votes := by rw [Replica.votes, hsent, Replica.votes]
  have hr := hs.honest.toRooted.of_eq hv hvi hplog hc hd hsent
  exact ⟨hs.votes.of_eq hv hvi hvotes hplog,
    hs.honest.extend hr hg hv hvi (fun _ h => .inl (hc ▸ h)) (fun _ h => hsent ▸ h) hseq,
    hb.pledged hs.pledged, hb.due hs.ready, hv.trans hs.v, hs.since.trans hg⟩

/-- The logs change, and the certificates of the prepares count nothing else. -/
theorem Honest.relog (hs : Honest cfg id H s) {l : Log PreparedCert} {l' : Log (Certificate Commit)}
    (hhead : s.plog.head ≤ l.head)
    (hl : ∀ k, Ledgered cfg id H s.votes (Logged cfg id s) (l.elems k)) :
    Honest cfg id H { s with plog := l, clog := l' } :=
  have hg : Grows s { s with plog := l, clog := l' } := .of_eq rfl rfl rfl le_rfl hhead
  have hr : Rooted cfg id H { s with plog := l, clog := l' } :=
    hs.toRooted.extend (hs.toRecord.of_eq rfl rfl rfl) hg rfl rfl hl (fun _ hc => .inl hc)
      fun _ hnv => hnv
  hs.extend hr hg rfl rfl (fun _ hc => .inl hc) (fun _ hnv => hnv) le_rfl

theorem certs_set {ps : List Prepare} {pps : PrePrepareMsg → Prop} {l : Log PreparedCert}
    {c : PreparedCert} (hl : ∀ k, Ledgered cfg id H ps pps (l.elems k))
    (hc : Ledgered cfg id H ps pps c) (m : Int) (k : Nat) :
    Ledgered cfg id H ps pps ((l.set cfg.P.maxOut m c).elems k) := by
  change Ledgered cfg id H ps pps (Function.update l.elems (Log.slot cfg.P.maxOut m) c k)
  by_cases hk : k = Log.slot cfg.P.maxOut m
  · subst hk
    rw [Function.update_self]
    exact hc
  · rw [Function.update_of_ne hk]
    exact hl k

theorem Honest.set (hs : Honest cfg id H s) {c : PreparedCert}
    (hc : Ledgered cfg id H s.votes (Logged cfg id s) c) (m : Int) :
    Honest cfg id H { s with plog := s.plog.set cfg.P.maxOut m c } :=
  hs.relog le_rfl (certs_set hs.certs hc m)

/-- The certificate for `n` is replaced. -/
theorem Pledged.setP (hs : Pledged cfg id H s) (hw : s.plog.withinRange cfg.P.maxOut n = true)
    {c : PreparedCert} (hvals : ValsFor s n (s.cert cfg n) → ValsFor s n c)
    (hc : Lasting (s.cert cfg n) c) :
    Pledged cfg id H { s with plog := s.plog.set cfg.P.maxOut n c } :=
  ⟨hs.toPledges.of_eq rfl rfl, hs.locked.setP hw (hvals (hs.locked.placed n hw).prepares) hc⟩

theorem HInv.setCalm (hs : HInv cfg id H r k q v base s) {c : PreparedCert}
    (hw : s.plog.withinRange cfg.P.maxOut n = true) (hcalm : Calm (s.cert cfg n) c)
    (hvals : ∀ {P : Prepare → Prop}, AllVals P (s.cert cfg n).pc → AllVals P c.pc)
    (hlast : Lasting (s.cert cfg n) c) (hc : Ledgered cfg id
      H s.votes (Logged cfg id s) (s.cert cfg n) → Ledgered cfg id H s.votes (Logged cfg id s) c) :
    HInv cfg id H r k q v base { s with plog := s.plog.set cfg.P.maxOut n c } :=
  ⟨(calmly_set hcalm).inv hs.votes, hs.honest.set (hc (hs.honest.certs _)) n,
    fun hu => (hs.pledged hu).setP hw hvals hlast,
    fun hu m hm => (hs.ready hu m hm).setP hlast, hs.v, hs.since.keep rfl rfl rfl le_rfl le_rfl⟩

/-- The window moves, while no commit is due. -/
theorem HInv.truncate (hs : HInv cfg id H r none q v base s) (m : Int) :
    HInv cfg id H r none q v base { s with
      plog := s.plog.truncate cfg.P.maxOut PreparedCert.clear m, clog :=
        s.clog.truncate cfg.P.maxOut Certificate.clear m } := by
  have hhead : (s.plog.truncate cfg.P.maxOut PreparedCert.clear m).head = max s.plog.head m :=
    Log.truncate_head m
  have hle : s.plog.head ≤ (s.plog.truncate cfg.P.maxOut PreparedCert.clear m).head := by omega
  refine ⟨(hs.votes.truncate m).of_eq rfl rfl rfl rfl,
    hs.honest.relog hle fun k => ?_, fun hu => ?_, fun _ _ hn => (by cases hn), hs.v,
    hs.since.keep rfl rfl rfl le_rfl hle⟩
  · have hk : (s.plog.truncate cfg.P.maxOut PreparedCert.clear m).elems k = s.plog.elems k ∨ _ :=
      Log.truncate_elems m k
    rcases hk with he | he
    · exact he ▸ hs.honest.certs k
    · exact he ▸ (hs.honest.certs k).clear
  · have hu : (s.plog.truncate cfg.P.maxOut PreparedCert.clear m).head < 2 ^ 31 := hu
    have hp := hs.pledged (lt_of_le_of_lt hle hu)
    exact ⟨hp.toPledges.of_eq rfl rfl, hp.locked.truncate (by omega)⟩

/-- A certificate with the same own prepare, in a view that has its new view. -/
theorem HInv.exchange (hs : HInv cfg id H r k q v base s) {c : PreparedCert}
    (hw : s.plog.withinRange cfg.P.maxOut n = true) (hr : ∀ n, ¬r n)
    (hnew : s.v = 0 ∨ s.vi.hasNewView cfg s.v = true) (hm : c.pc.mym = (s.cert cfg n).pc.mym)
    (hsane : Sane c) (hvals : ValsFor s n (s.cert cfg n) → ValsFor s n c)
    (hlast : Lasting (s.cert cfg n) c) (hc : Ledgered cfg id H s.votes (Logged cfg id s) c) :
    HInv cfg id H r k q v base { s with plog := s.plog.set cfg.P.maxOut n c } :=
  ⟨hs.votes.exchange hr hnew hm hsane, hs.honest.set hc n,
    fun hu => (hs.pledged hu).setP hw hvals hlast,
    fun hu m hm => (hs.ready hu m hm).setP hlast, hs.v, hs.since.keep rfl rfl rfl le_rfl le_rfl⟩

/-- A prepare is sent to all replicas. -/
theorem Record.vote (hs : Record cfg id H s) {p : Prepare} (hid : p.id = id)
    (hb : cfg.primary p.view ≠ id) (hm : Motive cfg H s p)
    (hnew : ∀ p' ∈ s.votes, p'.view = p.view → p'.seqno ≠ p.seqno) :
    Record cfg id H { s with sent := (none, .prepare p) :: s.sent } := by
  set t : Replica := { s with sent := (none, .prepare p) :: s.sent } with ht
  have hg : Grows s t := grows_cons _
  have hnews : ∀ dest nv, (dest, .newView nv) ∈ t.sent → (dest, .newView nv) ∈ s.sent :=
    fun dest nv hnv => by
    rcases List.mem_cons.1 hnv with he | hnv
    · cases he
    · exact hnv
  refine ⟨hs.agreed.cons hnew, fun p' hp' => ?_, fun k p' hp' => ?_, fun dest m hm hp => ?_,
    fun dest nv hnv => hg.sent _ (hs.news dest nv (hnews dest nv hnv)),
    fun nv nv' hnv hnv' => hs.once nv nv' (hnews none nv hnv) (hnews none nv' hnv'),
      fun c hc nv hnv h1 h2 h3 => ?_, fun pp hpp => ?_⟩
  · rcases List.mem_cons.1 (show p' ∈ p :: s.votes from hp') with rfl | hp'
    · exact ⟨hid, hb, hm.mono hg⟩
    · obtain ⟨h1, h2, h3⟩ := hs.motive p' hp'
      exact ⟨h1, h2, h3.mono hg⟩
  · rcases List.mem_cons.1 hp' with he | hp'
    · cases he
    · exact (hs.proofs k p' hp').imp (hg.votes p') fun h => h
  · rcases List.mem_cons.1 hm with he | hm
    · cases he
    · exact hs.issued dest m hm hp
  · exact (hs.picked c hc nv (hnews none nv hnv) h1 h2 h3).mono fun _ => hg.known
  · exact (hs.committed pp hpp).mono hg.votes

/-- A prepare is sent, and the certificate counts it. -/
theorem HInv.vote {r' : Int → Prop} (hs : HInv cfg id H r' k q v base s) {p : Prepare}
    {c : PreparedCert} (hw : s.plog.withinRange cfg.P.maxOut n = true)
    (hrec : Record cfg id H { s with sent := (none, .prepare p) :: s.sent })
    (hc : Ledgered cfg id H (p :: s.votes) (Logged cfg id s) c)
    (hvals : ValsFor s n (s.cert cfg n) → ValsFor s n c) (hlast : Lasting (s.cert cfg n) c)
    (hvotes : VInv cfg id r q { s with plog := s.plog.set cfg.P.maxOut n c,
                                       sent := (none, .prepare p) :: s.sent }) :
    HInv cfg id H r k q v base { s with plog := s.plog.set cfg.P.maxOut n c,
                                        sent := (none, .prepare p) :: s.sent } := by
  set t : Replica :=
    { s with plog := s.plog.set cfg.P.maxOut n c, sent := (none, .prepare p) :: s.sent } with ht
  have hg : Grows s t :=
    ⟨fun _ ho => List.mem_cons_of_mem _ ho, fun _ h => h, fun _ h => h, le_rfl, le_rfl⟩
  have hnews : ∀ nv, (none, .newView nv) ∈ t.sent → (none, .newView nv) ∈ s.sent := fun nv hnv => by
    rcases List.mem_cons.1 hnv with he | hnv
    · cases he
    · exact hnv
  have hrooted : Rooted cfg id H t := hs.honest.toRooted.extend (hrec.of_eq rfl rfl rfl) hg rfl rfl
    (certs_set (fun k => (hs.honest.certs k).mono hg.votes fun _ h => h) hc n)
      (fun _ hc => .inl hc) hnews
  have hb : Beside s { s with sent := (none, .prepare p) :: s.sent } :=
    beside_cons fun _ _ he => by cases he
  exact ⟨hvotes, hs.honest.extend hrooted hg rfl rfl (fun _ hc => .inl hc) hnews le_rfl,
    fun hu => (hb.pledged hs.pledged hu).setP hw hvals hlast,
      fun hu m hm => (hb.due hs.ready hu m hm).setP hlast, hs.v, hs.since.trans hg⟩

theorem voter_own {p : Prepare} (hid : id < cfg.n) (hp : p.id = id) (hb : cfg.primary p.view ≠ id) :
    Voter cfg id H (p :: s.votes) p :=
  ⟨hp ▸ hid, fun he => hb (he.symm.trans hp), fun _ => List.mem_cons_self, fun hne => absurd hp hne⟩

/-! ## Steps of the history -/

/-- A pre-prepare is created, as the new-view message of the view picks it. -/
theorem HInv.create (hs : HInv cfg id H r k q v base s) (pp : PrePrepareMsg) (ls : Int)
    (hv : pp.view = s.v) (hnew : s.v = 0 ∨ s.vi.hasNewView cfg s.v = true)
    (hp : ∀ nv, (none, .newView nv) ∈ s.sent → nv.v = s.v → nv.min < pp.seqno → pp.seqno < nv.max →
      nv.Picks cfg (Known H s) pp.seqno pp.digest) :
    HInv cfg id H r k q v base { s with created := (pp, ls) :: s.created } := by
  set t : Replica := { s with created := (pp, ls) :: s.created } with ht
  have hmem : ∀ {P : PrePrepareMsg × Int → Prop}, P (pp, ls) → ∀ c ∈ t.created,
    c ∈ s.created ∨ P c := fun hP c hc => by
    rcases List.mem_cons.1 hc with rfl | hc
    · exact .inr hP
    · exact .inl hc
  have hg : Grows s t :=
    ⟨fun _ h => h, fun _ hc => List.mem_cons_of_mem _ hc, fun _ h => h, le_rfl, le_rfl⟩
  have hb : Beside s t := .of_eq rfl rfl rfl rfl rfl
  have hrec : Record cfg id H t :=
    hs.honest.toRecord.extend hg rfl (fun _ _ hp => .inl hp) (fun _ _ hm => .inl hm) hs.honest.news
    (hmem fun nv hnv hv' h1 h2 => hp nv hnv (hv'.trans hv) h1 h2) fun _ hpp => .inl hpp
  have hrooted : Rooted cfg id H t := hs.honest.toRooted.extend hrec hg rfl rfl
    (fun k => (hs.honest.certs k).mono (fun _ h => h) fun _ => Logged.mono hg) (hmem hv)
      fun _ hnv => hnv
  exact ⟨hs.votes.of_eq rfl rfl rfl rfl,
    hs.honest.extend hrooted hg rfl rfl (hmem hnew) (fun _ hnv => hnv) le_rfl,
    hb.pledged hs.pledged, hb.due hs.ready, hs.v, hs.since.trans hg⟩

/-- A pre-prepare with enough votes and commits is executed. -/
theorem HInv.commit (hs : HInv cfg id H r k q v base s) {pp : PrePrepareMsg}
    (hb : Backed cfg id H s.votes pp.view pp.seqno pp.digest)
    (hc : s.Unwrapped → Certified cfg id H.commit s.sent pp.view pp.seqno) :
    HInv cfg id H r k q v base { s with committed := pp :: s.committed } := by
  set t : Replica := { s with committed := pp :: s.committed } with ht
  have hg : Grows s t :=
    ⟨fun _ h => h, fun _ h => h, fun _ hp => List.mem_cons_of_mem _ hp, le_rfl, le_rfl⟩
  have hmem : ∀ {P : PrePrepareMsg → Prop}, P pp → ∀ x ∈ t.committed, x ∈ s.committed ∨ P x :=
    fun hP x hx => by
    rcases List.mem_cons.1 hx with rfl | hx
    · exact .inr hP
    · exact .inl hx
  have hrec : Record cfg id H t := hs.honest.toRecord.extend
    hg rfl (fun _ _ hp => .inl hp) (fun _ _ hm => .inl hm) hs.honest.news (fun _ hc => .inl hc)
    (hmem hb)
  have hrooted : Rooted cfg id H t :=
    hs.honest.toRooted.extend hrec hg rfl rfl hs.honest.certs (fun _ hc => .inl hc) fun _ hnv => hnv
  refine ⟨hs.votes.of_eq rfl rfl rfl rfl, hs.honest.extend
    hrooted hg rfl rfl (fun _ hc => .inl hc) (fun _ hnv => hnv) le_rfl, fun hu => ?_,
    fun hu n hn => ?_, hs.v, hs.since.trans hg⟩
  · have hp := hs.pledged hu
    exact ⟨hp.toPledges.extend (fun _ h => h) (fun _ h => .inl h)
      (fun _ _ h => .inl h) (hmem (hc hu)),
      ⟨hp.locked.head, hp.locked.pos, fun n hn => ⟨(hp.locked.placed n hn).prepares,
        (hp.locked.placed n hn).commits, (hp.locked.placed n hn).pledged⟩,
        hp.locked.past⟩⟩
  · have hr := hs.ready hu n hn
    exact ⟨hr.range, hr.complete, hr.unsent⟩

/-- A message that no vote, pre-prepare or new view depends on. -/
theorem Honest.pledge (hs : Honest cfg id H s) (c : Commit) :
    Honest cfg id H { s with sent := (none, .commit c) :: s.sent } := by
  have hg : Grows s { s with sent := (none, .commit c) :: s.sent } := grows_cons _
  have hold : ∀ {dest m}, (dest, m) ∈ (none, Msg.commit c) :: s.sent →
    m ≠ .commit c → (dest, m) ∈ s.sent := fun hmem hne =>
    (List.mem_cons.1 hmem).resolve_left fun he => hne (Prod.mk.inj he).2
  have hrec : Record cfg id H { s with sent := (none, .commit c) :: s.sent } :=
    hs.toRecord.extend hg rfl
    (fun _ _ hp => .inl (hold hp fun h => by cases h))
      (fun _ _ hm => .inl (hold hm fun h => by cases h))
    (fun dest nv hnv => hs.news dest nv (hold hnv fun h => by cases h)) (fun _ h => .inl h)
      fun _ h => .inl h
  have hnews : ∀ nv, (none, .newView nv) ∈ (none, Msg.commit c) :: s.sent →
    (none, .newView nv) ∈ s.sent := fun nv hnv => hold hnv fun h => by cases h
  have hrooted : Rooted cfg id H { s with sent := (none, .commit c) :: s.sent } :=
    hs.toRooted.extend hrec hg rfl rfl hs.certs (fun _ h => .inl h) hnews
  exact hs.extend hrooted hg rfl rfl (fun _ h => .inl h) hnews le_rfl

/-- **A commit is sent** for what `2f` backups voted for. -/
theorem HInv.pledge (hs : HInv cfg id H r none q v base s) (hr : s.Unwrapped → Ready cfg s n) :
    HInv cfg id H r none q v base { s with sent := (none, .commit ⟨s.v, n, id⟩) :: s.sent } := by
  refine ⟨hs.votes.of_eq rfl rfl rfl rfl, hs.honest.pledge _,
    fun hu => ?_, fun _ _ hn => (by cases hn), hs.v, hs.since.trans (grows_cons _)⟩
  have hp := hs.pledged hu
  have hready := hr hu
  obtain ⟨m, hm, hb⟩ := (hs.honest.certs (Log.slot cfg.P.maxOut n)).backed hready.complete
  obtain ⟨hv, hn⟩ := (hp.locked.placed n hready.range).prePrepare hready.complete hm
  rw [hv, hn] at hb
  refine ⟨hp.toPledges.extend (fun _ => List.mem_cons_of_mem _) (fun c hc => ?_) (fun j c hc => ?_)
    fun _ h => .inl h,
    hp.locked.pledge hready.range hready.complete⟩
  · rcases List.mem_cons.1 hc with he | hc
    · cases he
      exact .inr ⟨rfl, m.digest, hb⟩
    · exact .inl hc
  · rcases List.mem_cons.1 hc with he | hc
    · cases he
    · exact .inl hc

/-- The certificate of the commits for `n` is replaced. -/
theorem HInv.setC (hs : HInv cfg id H r k q v base s)
    (hw : s.clog.withinRange cfg.P.maxOut n = true) {c : Certificate Commit} (hc : s.Unwrapped →
      CountsFor cfg id H.commit s n (s.commitCert cfg n) → CountsFor cfg id H.commit s n c) :
    HInv cfg id H r k q v base { s with clog := s.clog.set cfg.P.maxOut n c } := by
  refine ⟨hs.votes.of_eq rfl rfl rfl rfl, hs.honest.relog le_rfl hs.honest.certs,
    fun hu => ?_, fun hu m hm => ?_, hs.v,
    hs.since.keep rfl rfl rfl le_rfl le_rfl⟩
  · have hp := hs.pledged hu
    have hw := hp.locked.window.symm.trans hw
    exact ⟨hp.toPledges.of_eq rfl rfl, hp.locked.setC hw (hc hu (hp.locked.placed n hw).commits)⟩
  · have hr := hs.ready hu m hm
    exact ⟨hr.range, hr.complete, hr.unsent⟩

/-! ## The new view -/

/-- In the current view a complete `NV_info` is the one of its primary, and for this view. -/
theorem current_of_complete (hid : id < cfg.n) {vi : ViewInfo} (hok : ViewInfo.Ok cfg id vi)
    {j : Nat} (hc : (vi.lastNvs j).isComplete = true) :
    (vi.lastNvs j).v = vi.v ∧ j = cfg.primary vi.v ∧ vi.v ≠ 0 := by
  have hne : (vi.lastNvs j).v ≠ 0 := by
    intro h0
    rw [hok.inv.zero j h0] at hc
    cases hc
  obtain ⟨hpos, hle, hp⟩ := hok.inv.prim j hne
  have hv := le_antisymm (hok.inv.not_later hid hc) hle
  exact ⟨hv, by rw [← hp, hv], by omega⟩

/-- An operation of `vi` that asks for no new view leaves the announced one alone. -/
theorem HInv.served (hs : HInv cfg id H r k q v base s) {A : Prop} {w : ViewInfo} {q' : Nat}
    (hk : ViewInfo.Kept cfg id True A s.vi w)
    (hsrc : ViewInfo.Sourced cfg id (Known H s) H.newView H.reached s.v w)
    (hf : NVInfo.Frozen (s.vi.lastNvs id) (w.lastNvs id)) (hq : ∀ x, s.v < x → w.held cfg x ≤ q')
    (h0 : pnvOuts w.outs = 0) : HInv cfg id H r k q' v base (served s w) := by
  have hwv : w.v = s.v := hk.v.trans hs.votes.viV
  have hiff : w.hasNewView cfg s.v = true ↔ s.vi.hasNewView cfg s.v = true := by
    have hkeeps := hk.keeps trivial
    have hcalled := hk.called trivial
    rw [hwv, hs.votes.viV] at hkeeps hcalled
    exact ⟨fun ht => (hcalled ht).resolve_right (by omega), fun ht => (hkeeps ht).1⟩
  have hrooted : Rooted cfg id H (Replica.served s w) :=
    { hs.honest.toRooted with
      toRecord := hs.honest.toRecord.of_eq rfl rfl rfl
      vi := ⟨hsrc.nvs, hsrc.idle, hsrc.vcs, hsrc.past,
        fun _ ho => (List.not_mem_nil ho).elim, hsrc.nonneg⟩ }
  have hsame : cfg.primary s.v = id → s.vi.hasNewView cfg s.v = true →
    (w.lastNvs id).nv = (s.vi.lastNvs id).nv ∧
      (w.lastNvs id).nvSent = (s.vi.lastNvs id).nvSent := by
    intro hp hnew
    have hc : (s.vi.lastNvs id).isComplete = true := hp ▸ hnew
    obtain ⟨-, -, h3, h4⟩ := hf hc
    exact ⟨h3, h4⟩
  have hb : Beside s (Replica.served s w) := .of_eq rfl rfl rfl rfl rfl
  refine ⟨hs.votes.served hk hq,
    { hrooted with fresh := fun hz hno => ?_, told := fun nv hnv => ?_,
                   closed := fun hp hnew => ?_, above := hs.honest.above },
    hb.pledged hs.pledged, hb.due hs.ready, hs.v, hs.since.keep rfl rfl rfl le_rfl le_rfl⟩
  · refine hs.honest.fresh hz ?_
    by_contra hne
    have hno : w.hasNewView cfg s.v = false := hno
    rw [hiff.2 (by simpa using hne)] at hno
    cases hno
  · refine (hs.honest.told nv hnv).trans ⟨fun ⟨h1, h2, h3⟩ =>
      ⟨h1, hiff.2 h2, (hsame h1 h2).1.trans h3⟩, fun ⟨h1, h2, h3⟩ => ?_⟩
    have h2 : w.hasNewView cfg s.v = true := h2
    exact ⟨h1, hiff.1 h2, (hsame h1 (hiff.1 h2)).1.symm.trans h3⟩
  · have hnew : w.hasNewView cfg s.v = true := hnew
    exact (hsame hp (hiff.1 hnew)).2.trans (hs.honest.closed hp (hiff.1 hnew))

/-- One that asks for it has found no new view before. -/
theorem HInv.served_due (hid : id < cfg.n) (hs : HInv cfg id H r k q v base s) {A : Prop}
    {w : ViewInfo} {q' : Nat} (hk : ViewInfo.Kept cfg id True A s.vi w)
    (hsrc : ViewInfo.Sourced cfg id (Known H s) H.newView H.reached s.v w)
    (hq : ∀ x, s.v < x → w.held cfg x ≤ q') (h1 : pnvOuts w.outs = 1) :
    HDue cfg id H r q' v base (Replica.served s w) ∧ (s.Unwrapped → k = none) := by
  have hno : s.vi.hasNewView cfg s.v = false := by
    by_contra hne
    have := (hk.keeps trivial (by rw [hs.votes.viV]; simpa using hne)).2
    rw [h1, hs.votes.outs] at this
    cases this
  have hz : s.v ≠ 0 := by
    have hcomp := hk.ok.complete h1
    obtain ⟨-, -, hz⟩ := current_of_complete hid hk.ok hcomp
    rwa [hk.v, hs.votes.viV] at hz
  have hrooted : Rooted cfg id H (Replica.served s w) :=
    { hs.honest.toRooted with
      toRecord := hs.honest.toRecord.of_eq rfl rfl rfl
      vi := ⟨hsrc.nvs, hsrc.idle, hsrc.vcs, hsrc.past,
        fun _ ho => (List.not_mem_nil ho).elim, hsrc.nonneg⟩ }
  have hb : Beside s (Replica.served s w) := .of_eq rfl rfl rfl rfl rfl
  refine ⟨⟨hs.votes.served_due hid hk hq h1,
    { hrooted with fresh := hs.honest.fresh hz hno, untold := fun nv hnv hv => ?_ },
    hb.pledged hs.pledged, hs.v, hs.since.keep rfl rfl rfl le_rfl le_rfl⟩, fun hu => ?_⟩
  · have := ((hs.honest.told nv hv).1 hnv).2.1
    rw [hno] at this
    cases this
  · -- a certificate that is complete is not blank
    cases k with
    | none => rfl
    | some n =>
      obtain ⟨_, cv, -, -, hcv, -⟩ := PreparedCert.isComplete_correct (hs.ready hu n rfl).complete
      rw [(hs.votes.fresh hz hno n).2.cvalue] at hcv
      cases hcv

end Replica

end TinyBFT
