import TinyBFT.Tally
import TinyBFT.Voting

/-!
# What the commits of a replica stand for

A commit names a view and a sequence number, and no digest (`Commit.h`). A replica sends it when the
certificate of the sequence number becomes complete (`Replica.cc:620-644`), so that it vouches for
what `2f` backups have voted for; and it executes a batch once `2f + 1` replicas have committed
(`Replica.cc:1219-1233`). In both cases the certificates are those of a slot of a log, and what a
slot holds has to be for the sequence number that it stands for now, and of the current view
(`Placed`).

`truncate` clears the slots that leave the window in a loop over `int`s (`Log.t:49-68`). Where its
bounds wrap it clears none, and the messages for a sequence number count for another one; what
follows is about replicas whose logs start below `2 ^ 31` (`Unwrapped`).

| here | there |
| --- | --- |
| `Certified` | the commits that `committed` (`Replica.cc:1219-1233`) has counted |
| `Placed`    | the certificates of `plog` and `clog` for one sequence number of the window |
| `Ready`     | a complete certificate whose commit was not sent yet (`Replica.cc:586-589`, `:654-657`) |
| `Vacating`  | the loop of `send_view_change` that clears the window (`Replica.cc:1089-1116`) |
-/

namespace TinyBFT

namespace Replica

open Certificate (AllVals Counts)
open PreparedCert (Lasting)

variable (cfg : Cfg) (id : Nat) (HC : Commit → Prop)

/-- The certificate of the commits for `n`. -/
def commitCert (s : Replica) (n : Int) : Certificate Commit := s.clog.entry cfg.P.maxOut n

/-- The bounds of the loop of `truncate` do not wrap. -/
def Unwrapped (s : Replica) : Prop := s.plog.head < 2 ^ 31

/-- The commit of a replica, which was sent by the replica itself or heard. -/
structure Committer (sent : List (Option Nat × Msg)) (c : Commit) : Prop where
  lt : c.id < cfg.n
  own : c.id = id → (none, .commit c) ∈ sent
  heard : c.id ≠ id → HC c

/-- `2f + 1` replicas have committed. -/
def Certified (sent : List (Option Nat × Msg)) (v n : Int) : Prop :=
  ∃ L : List Commit, (L.map Commit.id).Nodup ∧ 2 * cfg.f < L.length ∧ ∀ c ∈ L,
    Committer cfg id HC sent c ∧ c.view = v ∧ c.seqno = n

/-- The values of the certificate are about `n` and the current view. -/
abbrev ValsFor (s : Replica) (n : Int) (c : PreparedCert) : Prop :=
  AllVals (fun p : Prepare => p.view = s.v ∧ p.seqno = n) c.pc

/-- The certificate counts commits for `n` and the current view, and `2f + 1` of them make it
complete. -/
abbrev CountsFor (s : Replica) (n : Int) (c : Certificate Commit) : Prop :=
  Counts (cfg.env id) (fun c => Committer cfg id HC s.sent c ∧ c.view = s.v ∧ c.seqno = n)
    (2 * cfg.f + 1) c

/-- The certificates for `n` are about `n` and the current view. -/
structure Placed (s : Replica) (n : Int) : Prop where
  prepares : ValsFor s n (s.cert cfg n)
  commits : CountsFor cfg id HC s n (s.commitCert cfg n)
  /-- A commit was sent for a complete certificate, which stays so. -/
  pledged : ∀ c, (none, .commit c) ∈ s.sent → c.view = s.v →
    c.seqno = n → (s.cert cfg n).isComplete = some true

/-- What the logs hold. -/
structure Locked (s : Replica) : Prop where
  head : s.clog.head = s.plog.head
  pos : 1 ≤ s.plog.head
  placed : ∀ n, s.plog.withinRange cfg.P.maxOut n = true → Placed cfg id HC s n
  past : ∀ c, (none, .commit c) ∈ s.sent → c.view ≤ s.v ∧
    (c.view = s.v → c.seqno < s.plog.head + cfg.P.maxOut)

/-- No commit was sent for `n` in the current view. -/
def Unsent (s : Replica) (n : Int) : Prop :=
  ∀ c, (none, .commit c) ∈ s.sent → c.view = s.v → c.seqno ≠ n

/-- The certificate for `n` is complete, and no commit was sent for it. -/
structure Ready (s : Replica) (n : Int) : Prop where
  range : s.plog.withinRange cfg.P.maxOut n = true
  complete : (s.cert cfg n).isComplete = some true
  unsent : s.Unsent n

/-- On the way into view `nv`; the certificates for the numbers of `done` are cleared. -/
structure Vacating (nv : Int) (done : Int → Prop) (s : Replica) : Prop where
  head : s.clog.head = s.plog.head
  pos : 1 ≤ s.plog.head
  counts : ∀ n, s.plog.withinRange cfg.P.maxOut n = true →
    2 * cfg.f + 1 ≤ (s.commitCert cfg n).complete
  cleared : ∀ n, done n → (s.cert cfg n).pc.vals = [] ∧ ∃ k,
    s.commitCert cfg n = ⟨[], [], none, k, none⟩
  past : ∀ c, (none, .commit c) ∈ s.sent → c.view < nv

/-- The logs and the commits are the same; some of the commits may be sent again. -/
structure Beside (s t : Replica) : Prop where
  v : t.v = s.v
  plog : t.plog = s.plog
  clog : t.clog = s.clog
  committed : t.committed = s.committed
  sent : ∀ o ∈ s.sent, o ∈ t.sent
  commits : ∀ c, (none, .commit c) ∈ t.sent → (none, .commit c) ∈ s.sent
  resent : s.Unwrapped → ∀ k c, (some k, .commit c) ∈ t.sent →
    (some k, .commit c) ∈ s.sent ∨ (none, .commit c) ∈ s.sent

variable {cfg id HC} {s t u : Replica} {n m : Int} {nv : Int} {done done' : Int → Prop}

theorem mem_window : s.plog.withinRange cfg.P.maxOut n = true ↔
    s.plog.head ≤ n ∧ n < s.plog.head + cfg.P.maxOut := by
  simp only [Log.withinRange, Bool.and_eq_true, decide_eq_true_eq]

/-! ## What was sent was sent -/

section Sent

variable {sent sent' : List (Option Nat × Msg)} {HC' : Commit → Prop} {c : Commit} {w : Int}

theorem Committer.mono (hsent : ∀ o ∈ sent, o ∈ sent') (h : Committer cfg id HC sent c) :
    Committer cfg id HC sent' c :=
  ⟨h.lt, fun hc => hsent _ (h.own hc), h.heard⟩

theorem Certified.mono (hsent : ∀ o ∈ sent, o ∈ sent') (h : Certified cfg id HC sent w n) :
    Certified cfg id HC sent' w n := by
  obtain ⟨L, h1, h2, h3⟩ := h
  exact ⟨L, h1, h2, fun c hc => ⟨(h3 c hc).1.mono hsent, (h3 c hc).2⟩⟩

theorem Committer.hear (hle : ∀ c, HC c → HC' c) (h : Committer cfg id HC sent c) :
    Committer cfg id HC' sent c :=
  ⟨h.lt, h.own, fun hne => hle c (h.heard hne)⟩

theorem Certified.hear (hle : ∀ c, HC c → HC' c) (h : Certified cfg id HC sent w n) :
    Certified cfg id HC' sent w n := by
  obtain ⟨L, h1, h2, h3⟩ := h
  exact ⟨L, h1, h2, fun c hc => ⟨(h3 c hc).1.hear hle, (h3 c hc).2⟩⟩

theorem Placed.hear (hle : ∀ c, HC c → HC' c) (h : Placed cfg id HC s n) : Placed cfg id HC' s n :=
  ⟨h.prepares, h.commits.mono fun _ hc => ⟨hc.1.hear hle, hc.2⟩, h.pledged⟩

theorem Locked.hear (hle : ∀ c, HC c → HC' c) (h : Locked cfg id HC s) : Locked cfg id HC' s :=
  ⟨h.head, h.pos, fun n hn => (h.placed n hn).hear hle, h.past⟩

end Sent

/-! ## Steps beside the logs -/

theorem Beside.of_eq (hv : t.v = s.v) (hplog : t.plog = s.plog) (hclog : t.clog = s.clog)
    (hd : t.committed = s.committed) (hsent : t.sent = s.sent) : Beside s t :=
  ⟨hv, hplog, hclog, hd, fun _ h => hsent ▸ h, fun _ h =>
    hsent ▸ h, fun _ _ _ h => .inl (hsent ▸ h)⟩

/-- A message that is no commit. -/
theorem beside_cons {o : Option Nat × Msg} (ho : ∀ dest c, o ≠ (dest, .commit c)) :
    Beside s { s with sent := o :: s.sent } :=
  ⟨rfl, rfl, rfl, rfl, fun _ h => List.mem_cons_of_mem o h,
    fun c hc => (List.mem_cons.1 hc).resolve_left fun he => ho none c he.symm,
    fun _ k c hc => .inl ((List.mem_cons.1 hc).resolve_left fun he => ho (some k) c he.symm)⟩

/-- A commit that is sent again. -/
theorem beside_resend {k : Nat} {c : Commit} (hc : s.Unwrapped → (none, .commit c) ∈ s.sent) :
    Beside s { s with sent := (some k, .commit c) :: s.sent } := by
  refine ⟨rfl, rfl, rfl, rfl, fun _ h => List.mem_cons_of_mem _ h,
    fun x hx => ?_, fun hu j x hx => ?_⟩
  · rcases List.mem_cons.1 hx with he | hx
    · cases he
    · exact hx
  · rcases List.mem_cons.1 hx with he | hx
    · cases he
      exact .inr (hc hu)
    · exact .inl hx

theorem Beside.unwrapped (h : Beside s t) (ht : t.Unwrapped) : s.Unwrapped := by
  rw [Unwrapped, h.plog] at ht
  exact ht

theorem Beside.placed (h : Beside s t) (hs : Placed cfg id HC s n) : Placed cfg id HC t n where
  prepares := by
    rw [ValsFor, cert, h.plog, h.v]
    exact hs.prepares
  commits := by
    rw [commitCert, h.clog]
    exact hs.commits.mono fun c hc => ⟨hc.1.mono h.sent, hc.2.1.trans h.v.symm, hc.2.2⟩
  pledged c hc hv hn := by
    rw [cert, h.plog]
    exact hs.pledged c (h.commits c hc) (hv.trans h.v) hn

theorem Beside.locked (h : Beside s t) (hs : Locked cfg id HC s) : Locked cfg id HC t where
  head := by rw [h.clog, h.plog, hs.head]
  pos := by rw [h.plog]; exact hs.pos
  placed n hn := h.placed (hs.placed n (h.plog ▸ hn))
  past c hc := by rw [h.v, h.plog]; exact hs.past c (h.commits c hc)

theorem Beside.unsent (h : Beside s t) (hs : s.Unsent n) : t.Unsent n :=
  fun c hc hv => hs c (h.commits c hc) (hv.trans h.v)

theorem Beside.ready (h : Beside s t) (hs : Ready cfg s n) : Ready cfg t n where
  range := by rw [h.plog]; exact hs.range
  complete := by rw [cert, h.plog]; exact hs.complete
  unsent := h.unsent hs.unsent

theorem Beside.vacating (h : Beside s t) (hs : Vacating cfg nv done s) :
    Vacating cfg nv done t where
  head := by rw [h.clog, h.plog, hs.head]
  pos := by rw [h.plog]; exact hs.pos
  counts n hn := by rw [commitCert, h.clog]; exact hs.counts n (h.plog ▸ hn)
  cleared n hn := by rw [cert, commitCert, h.plog, h.clog]; exact hs.cleared n hn
  past c hc := hs.past c (h.commits c hc)

/-! ## Steps of the certificates -/

/-- Both logs have one window. -/
theorem Locked.window (hs : Locked cfg id HC s) :
    s.clog.withinRange cfg.P.maxOut n = s.plog.withinRange cfg.P.maxOut n := by
  simp only [Log.withinRange, hs.head]

/-- The certificate for `m` is replaced. -/
theorem Ready.setP (hs : Ready cfg s n) {c : PreparedCert} (hc : Lasting (s.cert cfg m) c) :
    Ready cfg { s with plog := s.plog.set cfg.P.maxOut m c } n := by
  refine ⟨hs.range, ?_, hs.unsent⟩
  rw [cert, cert_set]
  split
  · exact hc (cert_of_slot (s := s) ‹_› ▸ hs.complete)
  · exact hs.complete

theorem Locked.setP (hs : Locked cfg id HC s) (hm : s.plog.withinRange cfg.P.maxOut m = true)
    {c : PreparedCert} (hvals : ValsFor s m c) (hc : Lasting (s.cert cfg m) c) :
    Locked cfg id HC { s with plog := s.plog.set cfg.P.maxOut m c } := by
  refine ⟨hs.head, hs.pos, fun n hn => ?_, hs.past⟩
  have hn : s.plog.withinRange cfg.P.maxOut n = true := hn
  have hp := hs.placed n hn
  by_cases hnm : n = m
  · subst hnm
    have hself : Replica.cert cfg { s with plog := s.plog.set cfg.P.maxOut n c } n = c :=
      Log.entry_set_self c
    exact ⟨by rw [hself]; exact hvals, hp.commits,
      fun x hx hv hxn => by rw [hself]; exact hc (hp.pledged x hx hv hxn)⟩
  · have hother : Replica.cert cfg { s with plog := s.plog.set cfg.P.maxOut m c } n =
      s.cert cfg n := Log.entry_set_of_ne c hm hn hnm
    exact ⟨by rw [hother]; exact hp.prepares, hp.commits,
      fun x hx hv hxn => by rw [hother]; exact hp.pledged x hx hv hxn⟩

theorem Locked.setC (hs : Locked cfg id HC s) (hm : s.plog.withinRange cfg.P.maxOut m = true)
    {c : Certificate Commit} (hc : CountsFor cfg id HC s m c) :
    Locked cfg id HC { s with clog := s.clog.set cfg.P.maxOut m c } := by
  refine ⟨hs.head, hs.pos, fun n hn => ?_, hs.past⟩
  have hn : s.plog.withinRange cfg.P.maxOut n = true := hn
  have hp := hs.placed n hn
  refine ⟨hp.prepares, ?_, hp.pledged⟩
  by_cases hnm : n = m
  · subst hnm
    have hself : Replica.commitCert cfg { s with clog := s.clog.set cfg.P.maxOut n c } n = c :=
      Log.entry_set_self c
    rw [hself]
    exact hc
  · have hother : Replica.commitCert cfg { s with clog := s.clog.set cfg.P.maxOut m c } n =
      s.commitCert cfg n :=
      Log.entry_set_of_ne c (hs.window.trans hm) (hs.window.trans hn) hnm
    rw [hother]
    exact hp.commits

/-- **The window moves.** What enters it was cleared, and no commit was sent for it. -/
theorem Locked.truncate (hs : Locked cfg id HC s) (hm : m < 2 ^ 31) :
    Locked cfg id HC { s with
      plog := s.plog.truncate cfg.P.maxOut PreparedCert.clear m, clog :=
        s.clog.truncate cfg.P.maxOut Certificate.clear m } := by
  set t : Replica := { s with
    plog := s.plog.truncate cfg.P.maxOut PreparedCert.clear m, clog :=
      s.clog.truncate cfg.P.maxOut Certificate.clear m } with ht
  have hhead : t.plog.head = max s.plog.head m := Log.truncate_head m
  have hchead : t.clog.head = max s.plog.head m := (Log.truncate_head m).trans (by rw [hs.head])
  have hdvd := cfg.maxOut_dvd
  have hsize : cfg.P.maxOut < 2 ^ 31 := by have := cfg.P.maxOut_lt; omega
  have hpos := cfg.P.maxOut_pos
  have hs1 := hs.pos
  refine ⟨by rw [hchead, hhead], by omega, fun n hn =>
    ?_, fun c hc => ⟨(hs.past c hc).1, fun hv => ?_⟩⟩
  swap
  · have := (hs.past c hc).2 hv
    omega
  obtain ⟨hlo, hhi⟩ := mem_window.1 hn
  rcases lt_or_ge n (s.plog.head + cfg.P.maxOut) with hold | hnew
  · -- the certificates of what stays are the same
    have hp := hs.placed n (mem_window.2 ⟨by omega, hold⟩)
    have hcert : t.cert cfg n = s.cert cfg n := Log.entry_truncate hdvd hsize (by omega) hold
    have hccert : t.commitCert cfg n = s.commitCert cfg n :=
      Log.entry_truncate hdvd hsize (by omega) (by rw [hs.head]; exact hold)
    exact ⟨by rw [hcert]; exact hp.prepares, by rw [hccert]; exact hp.commits,
      fun c hc hv hcn => by rw [hcert]; exact hp.pledged c hc hv hcn⟩
  · have hlt : s.plog.head < m := by omega
    have hwrap : toInt s.plog.head < toInt m := by
      rw [toInt_eq_self (by omega) (by omega), toInt_eq_self (by omega) (by omega)]
      exact hlt
    obtain ⟨k, -, -, -, hcert⟩ : ∃ k, s.plog.head ≤ k ∧
      k < s.plog.head + cfg.P.maxOut ∧ k < m ∧ t.cert cfg n = (s.cert cfg k).clear :=
      Log.entry_truncate_new hdvd hsize hpos (fun _ => hwrap) hlt hnew (by omega)
    obtain ⟨j, hj1, hj2, -, hccert⟩ :
      ∃ j, s.clog.head ≤ j ∧ j < s.clog.head + cfg.P.maxOut ∧ j < m ∧
        t.commitCert cfg n = (s.commitCert cfg j).clear := by
      refine Log.entry_truncate_new hdvd hsize hpos (fun _ => ?_) ?_ ?_ (by omega) <;>
        rw [hs.head] <;> assumption
    rw [hs.head] at hj1 hj2
    refine ⟨by rw [hcert]; exact Certificate.allVals_clear _, ?_, fun c hc hv hcn => ?_⟩
    · rw [hccert]
      exact (hs.placed j (mem_window.2 ⟨hj1, hj2⟩)).commits.clear
    · have := (hs.past c hc).2 hv
      omega

/-- **A commit is sent** for a certificate that is complete. -/
theorem Locked.pledge (hs : Locked cfg id HC s) (hr : s.plog.withinRange cfg.P.maxOut n = true)
    (hc : (s.cert cfg n).isComplete = some true) :
    Locked cfg id HC { s with sent := (none, .commit ⟨s.v, n, id⟩) :: s.sent } := by
  have hcase : ∀ {c : Commit}, (none, .commit c) ∈ (none, .commit ⟨s.v, n, id⟩) :: s.sent →
      c = ⟨s.v, n, id⟩ ∨ (none, .commit c) ∈ s.sent := by
    intro c hmem
    rcases List.mem_cons.1 hmem with he | hmem
    · cases he
      exact .inl rfl
    · exact .inr hmem
  refine ⟨hs.head, hs.pos, fun k hk => ?_, fun c hmem => ?_⟩
  · have hp := hs.placed k hk
    refine ⟨hp.prepares, hp.commits.mono fun c hc =>
      ⟨hc.1.mono fun o => List.mem_cons_of_mem _, hc.2⟩, fun c hmem hv hck => ?_⟩
    rcases hcase hmem with rfl | hmem
    · exact hck ▸ hc
    · exact hp.pledged c hmem hv hck
  · rcases hcase hmem with rfl | hmem
    · exact ⟨le_rfl, fun _ => (mem_window.1 hr).2⟩
    · exact hs.past c hmem

/-- Where the certificate is not complete, no commit was sent. -/
theorem Locked.unsent (hs : Locked cfg id HC s) (hr : s.plog.withinRange cfg.P.maxOut n = true)
    (hc : (s.cert cfg n).isComplete ≠ some true) :
    s.Unsent n := fun c hmem hv hn => hc ((hs.placed n hr).pledged c hmem hv hn)

/-- Where no commit was sent, the certificate of the commits has no own one. -/
theorem Locked.unsent_mine (hs : Locked cfg id HC s) (hr : Ready cfg s n) :
    (s.commitCert cfg n).mym = none := by
  cases hm : (s.commitCert cfg n).mym with
  | none => rfl
  | some c =>
    obtain ⟨⟨hc, hv, hn⟩, hid⟩ := (hs.placed n hr.range).commits.mine hm
    exact absurd hn (hr.unsent c (hc.own hid) hv)

/-- The own commit in a certificate was sent. -/
theorem Locked.mine_sent (hs : Locked cfg id HC s)
    (hr : s.plog.withinRange cfg.P.maxOut n = true) {c : Commit}
    (hm : (s.commitCert cfg n).mym = some c) : (none, .commit c) ∈ s.sent := by
  obtain ⟨⟨hc, -, -⟩, hid⟩ := (hs.placed n hr).commits.mine hm
  exact hc.own hid

/-- **A complete certificate** of commits. -/
theorem Locked.certified (hs : Locked cfg id HC s) (hr : s.plog.withinRange cfg.P.maxOut n = true)
    (hc : (s.commitCert cfg n).isComplete = true) : Certified cfg id HC s.sent s.v n := by
  have hcounts := (hs.placed n hr).commits
  obtain ⟨k, v, hk, hv, -⟩ := Certificate.isComplete_cases hcounts.complete_pos hc
  obtain ⟨L, h1, h2, -, h3⟩ := hcounts.quorum hc (Certificate.cvalue_of_getElem hk hv)
  exact ⟨L, h1, h2, fun c hcL => (h3 c hcL).1⟩

/-- The pre-prepare of a complete certificate is of the view, and for the sequence number. -/
theorem Placed.prePrepare (hs : Placed cfg id HC s n) (hc : (s.cert cfg n).isComplete = some true)
    {pp : PrePrepareMsg} (hpp : (s.cert cfg n).pp = some pp) : pp.view = s.v ∧ pp.seqno = n := by
  obtain ⟨m, cv, hm, -, hcv, hmatch⟩ := PreparedCert.isComplete_correct hc
  rw [hpp] at hm
  cases hm
  obtain ⟨hv, hn⟩ := hs.prepares.cvalue hcv
  unfold PrePrepareMsg.matchPrepare at hmatch
  split at hmatch
  · rename_i heq
    exact ⟨heq.1.trans hv, heq.2.trans hn⟩
  · cases hmatch

/-! ## The next view -/

/-- The replica leaves its view. -/
theorem Locked.leave (hs : Locked cfg id HC s) (hlt : s.v < nv) (hplog : t.plog = s.plog)
    (hclog : t.clog = s.clog) (hsent : t.sent = s.sent) :
    Vacating cfg nv (fun _ => False) t where
  head := by rw [hclog, hplog, hs.head]
  pos := by rw [hplog]; exact hs.pos
  counts n hn := by
    rw [commitCert, hclog]
    obtain ⟨_, -, h, -⟩ := (hs.placed n (hplog ▸ hn)).commits
    exact h
  cleared _ hn := hn.elim
  past c hc := lt_of_le_of_lt (hs.past c (hsent ▸ hc)).1 hlt

/-- The certificates for `m` are cleared. -/
theorem Vacating.clear (hs : Vacating cfg nv done s) (hr : s.plog.withinRange cfg.P.maxOut m = true)
    (hd : ∀ n, done' n → done n ∨ Log.slot cfg.P.maxOut n = Log.slot cfg.P.maxOut m) :
    Vacating cfg nv done' { s with
      plog := s.plog.set cfg.P.maxOut m (s.cert cfg m).clear, clog :=
        s.clog.set cfg.P.maxOut m (s.commitCert cfg m).clear } := by
  have hcases : ∀ n, Replica.commitCert cfg { s with
      plog := s.plog.set cfg.P.maxOut m (s.cert cfg m).clear, clog :=
        s.clog.set cfg.P.maxOut m (s.commitCert cfg m).clear } n =
      if Log.slot cfg.P.maxOut n = Log.slot cfg.P.maxOut m then
        (s.commitCert cfg m).clear else s.commitCert cfg n := by
    intro n
    split
    · simp [commitCert, Log.entry, Log.set, *]
    · exact Log.entry_set_of_slot_ne _ ‹_›
  refine ⟨hs.head, hs.pos, fun n hn => ?_, fun n hn => ?_, hs.past⟩
  · rw [hcases]
    split
    · exact hs.counts m hr
    · exact hs.counts n hn
  · rw [hcases, cert, cert_set]
    split
    · exact ⟨rfl, _, rfl⟩
    · exact hs.cleared n ((hd n hn).resolve_right ‹_›)

/-- The new view starts with cleared certificates. -/
theorem Vacating.enter (hs : Vacating cfg s.v (fun _ => True) s) : Locked cfg id HC s := by
  refine ⟨hs.head, hs.pos, fun n hn => ?_, fun c hc => ?_⟩
  · obtain ⟨hvals, k, hk⟩ := hs.cleared n trivial
    have hcount := hs.counts n hn
    rw [hk] at hcount
    refine ⟨fun x hx => ?_, ?_, fun c hc hv _ => absurd hv (hs.past c hc).ne⟩
    · rw [hvals] at hx
      exact (List.not_mem_nil hx).elim
    · rw [hk]
      exact ⟨[], Certificate.inv_nil (Nat.lt_of_lt_of_le (Nat.succ_pos _) hcount) [],
        hcount, fun _ hx => (List.not_mem_nil hx).elim⟩
  · have := hs.past c hc
    exact ⟨this.le, fun hv => absurd hv this.ne⟩

theorem Vacating.weaken (hs : Vacating cfg nv done s) (hd : ∀ n, done' n → done n) :
    Vacating cfg nv done' s :=
  ⟨hs.head, hs.pos, hs.counts, fun n hn => hs.cleared n (hd n hn), hs.past⟩

theorem locked_new (mem : Mem) : Locked cfg id HC (new cfg id mem) where
  head := rfl
  pos := le_rfl
  placed n _ :=
    ⟨fun _ hx => (List.not_mem_nil hx).elim, Certificate.counts_new le_rfl, by simp [new]⟩
  past := by simp [new]

end Replica

end TinyBFT
