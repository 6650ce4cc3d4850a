import TinyBFT.StaticCert

/-!
# The client (`Client.cc`, `Reply.cc`)

A client sends a request and waits for replies that agree: `f + 1` that are committed, or `2f + 1`
that are tentative. Each kind is counted by a certificate.

| here | there |
| --- | --- |
| `ReplyMsg`          | a `Reply` as it is received: `Reply_rep` and the bytes behind it |
| `ReplyMsg.verify`   | `Reply::verify` (`Reply.cc:91-122`); `mac` is what `verify_mac_in` returns, `hash` is SHA-256 |
| `Client`            | `out_rid`, `out_req != 0`, `t_reps` and `c_reps` (`Client.h:56-93`) |
| `Client.recvReply`  | one message in the loop of `recv_reply` (`Client.cc:76-123`) |
| `Client.newKey`     | `Client::send_new_key` (`Client.cc:166-171`) |
| `StaticClient`      | the same in the static build, with the messages in `special_region::replies` |

`new_rid` reads the clock; what it returns comes with the event. The view that the client takes from
the reply, the timers and the retransmissions are left out: nothing here reads them.

`Reply::match` compares views only where the message in the certificate is tentative and the new one
is not. All replies of `t_reps` are tentative, so replies of different views are counted for one
value.
-/

namespace TinyBFT

structure ReplyMsg where
  rep : Reply
  rid : Nat
  body : List UInt8
deriving DecidableEq, Repr

instance : CertMsg ReplyMsg where
  id m := m.rep.replica
  full m := CertMsg.full m.rep
  matchMsg a b := CertMsg.matchMsg a.rep b.rep

namespace ReplyMsg

def full (m : ReplyMsg) : Bool := CertMsg.full m.rep

/-- The reply itself: `reply_size` bytes. -/
def contents (m : ReplyMsg) : List UInt8 := m.body.take m.rep.replySize.toNat

/-- `size()`; `sizeof(Reply_rep)` is 64. -/
def size (m : ReplyMsg) : Nat := 64 + m.body.length

variable (E : Env) (hash : List UInt8 → Digest)

/-- `MAC_size` is 32. -/
def verify (m : ReplyMsg) (mac : Bool) : Bool :=
  E.isReplica m.rep.replica && 32 ≤ (m.body.length : Int) -
    (if m.full then m.rep.replySize else 0) &&
    (!m.full || hash m.contents == m.rep.digest) && mac

end ReplyMsg

structure Client where
  outRid : Nat
  outReq : Bool
  tReps : Certificate ReplyMsg
  cReps : Certificate ReplyMsg

namespace Client

variable (E : Env) (hash : List UInt8 → Digest)

def init (rid : Nat) : Client :=
  ⟨rid, false, Certificate.new E (2 * E.f + 1), Certificate.new E (E.f + 1)⟩

/-- The certificate that counts a reply. -/
def reps (s : Client) (tentative : Bool) : Certificate ReplyMsg :=
  if tentative then s.tReps else s.cReps

def setReps (s : Client) (tentative : Bool) (cert : Certificate ReplyMsg) : Client :=
  if tentative then { s with tReps := cert } else { s with cReps := cert }

/-- The end of `recv_reply`. -/
def finish (s : Client) (next : Nat) : Client := ⟨next, false, s.tReps.clear, s.cReps.clear⟩

/-- A message `m` is received; `next` is the following request identifier. The result is the reply
that is returned, if any. -/
def recvReply (s : Client) (m : ReplyMsg) (mac : Bool) (next : Nat) :
    Option (Client × Option ReplyMsg) :=
  let t := m.rep.isTentative
  if !s.outReq || m.rid ≠ s.outRid then some (s, none)
  else if (s.reps t).isComplete then
    -- a complete certificate without a full reply
    if m.full && m.verify E hash mac && (s.reps t).cvalue.any
      fun cv => CertMsg.matchMsg m cv == some true then
      some (s.finish next, some m)
    else some (s, none)
  else do
    let (cert, _) ← (s.reps t).add E m (m.verify E hash mac)
    let s := s.setReps t cert
    if cert.isComplete && cert.cvalue.any (·.full) then
      some (s.finish next, cert.cvalue) else some (s, none)

def newKey (s : Client) : Client := { s with tReps := s.tReps.clear, cReps := s.cReps.clear }

end Client

/-- What happens to a client. -/
inductive ClientEvent
  | sendRequest
  | reply (m : ReplyMsg) (mac : Bool) (next : Nat)
  | newKey
deriving DecidableEq, Repr

namespace Client

variable (E : Env) (hash : List UInt8 → Digest)

def handle (s : Client) : ClientEvent → Option (Client × Option ReplyMsg)
  | .sendRequest => some ({ s with outReq := true }, none)
  | .reply m mac next => s.recvReply E hash m mac next
  | .newKey => some (s.newKey, none)

def step (s : Client) (ev : ClientEvent) : Option Client := (s.handle E hash ev).map Prod.fst

/-- The reply verifies, is of the given kind, and gives the digest as the result of the request. -/
def Vouches (tentative : Bool) (rid : Nat) (digest : Digest) (m : ReplyMsg) (mac : Bool) : Prop :=
  m.verify E hash mac = true ∧ m.rep.isTentative = tentative ∧ m.rid = rid ∧ m.rep.digest = digest

/-- What a returned reply has to have behind it: `f + 1` replicas with committed replies, or `2f +
1` with tentative ones of one view. -/
def Endorsed (evs : List ClientEvent) (rid : Nat) (digest : Digest) : Prop :=
  (∃ ids : List Nat, ids.Nodup ∧ E.f + 1 ≤ ids.length ∧ ∀ i ∈ ids,
    ∃ m mac next, ClientEvent.reply m mac next ∈ evs ∧
    m.rep.replica = i ∧ Vouches E hash false rid digest m mac) ∨
  ∃ (view : Int) (ids : List Nat), ids.Nodup ∧ 2 * E.f + 1 ≤ ids.length ∧ ∀ i ∈ ids, ∃ m mac next,
    ClientEvent.reply m mac
      next ∈ evs ∧ m.rep.replica = i ∧ Vouches E hash true rid digest m mac ∧ m.rep.view = view

/-- The result of a request is right. -/
def Sound (evs : List ClientEvent) (rid : Nat) (r : ReplyMsg) : Prop :=
  r.full = true ∧ hash r.contents = r.rep.digest ∧ r.rid = rid ∧
    Endorsed E hash evs rid r.rep.digest

/-- A tentative reply that is counted has the view of the replies that it is counted with. -/
def SameView (s : Client) : ClientEvent → Prop
  | .reply m mac _ => m.rep.isTentative = true → m.rid = s.outRid →
      m.verify E hash mac = true → s.tReps.isComplete = false →
      m.rep.replica ∉ s.tReps.bmap → ∀ v ∈ s.tReps.vals,
        v.m.rep.digest = m.rep.digest → v.m.rep.view = m.rep.view
  | _ => True

end Client

open Certificate

theorem matches_replyMsg {a b : ReplyMsg} : Matches a b ↔ a.rep.digest = b.rep.digest :=
  matches_reply (a := a.rep) (b := b.rep)

theorem digest_of_match {a b : ReplyMsg} (h : CertMsg.matchMsg a b = some true) :
    a.rep.digest = b.rep.digest :=
  matches_replyMsg.1 (.inl h)

instance : LawfulCertMsg ReplyMsg where
  refl a := matches_replyMsg.2 rfl
  trans h h' := by
    rw [matches_replyMsg] at *
    exact h.trans h'

namespace Client

variable {E : Env} {hash : List UInt8 → Digest}

/-- A certificate of replies and the replies in it, which are among the events. -/
structure RepsInv (E : Env) (hash : List UInt8 → Digest) (evs : List ClientEvent) (rid : Nat)
    (tentative : Bool) (comp : Nat) (cert : Certificate ReplyMsg) (ledger : List ReplyMsg) :
      Prop where
  counts : Certificate.Inv E ⟨cert, ledger⟩
  complete : cert.complete = comp
  mine : cert.mym = none
  vouches : ∀ m ∈ ledger, ∃ mac next,
    ClientEvent.reply m mac next ∈ evs ∧ Vouches E hash tentative rid m.rep.digest m mac
  vals : ∀ v ∈ cert.vals, v.m ∈ ledger
  known : ∀ m ∈ ledger, ∃ v ∈ cert.vals, v.m.rep.digest = m.rep.digest
  views : tentative = true → ∀ v ∈ cert.vals, ∀ m ∈ ledger,
    v.m.rep.digest = m.rep.digest → v.m.rep.view = m.rep.view

variable {evs : List ClientEvent} {rid comp : Nat} {tentative : Bool}
    {cert cert' : Certificate ReplyMsg} {ledger : List ReplyMsg}
  {m : ReplyMsg}

theorem repsInv_nil (hcomp : 0 < comp) (bmap : List Nat) :
    RepsInv E hash evs rid tentative comp ⟨bmap, [], none, comp, none⟩ [] where
  counts := inv_nil hcomp bmap
  complete := rfl
  mine := rfl
  vouches := by simp
  vals := by simp
  known := by simp
  views := by simp

theorem RepsInv.mono (h : RepsInv E hash evs rid tentative comp cert ledger) (ev : ClientEvent) :
    RepsInv E hash (evs ++ [ev]) rid tentative comp cert ledger :=
  { h with
    vouches := fun m hm => by
      obtain ⟨mac, next, hev, hv⟩ := h.vouches m hm
      exact ⟨mac, next, List.mem_append_left _ hev, hv⟩ }

theorem RepsInv.clear (h : RepsInv E hash evs rid tentative comp cert ledger) (rid' : Nat) :
    RepsInv E hash evs rid' tentative comp cert.clear [] := by
  have hpos := h.counts.complete_pos
  have hc := h.complete
  subst hc
  exact repsInv_nil hpos []

/-- `m` is counted: every value is an old one or has the digest and, if it is tentative, the view of
`m`. -/
theorem RepsInv.push (h : RepsInv E hash evs rid tentative comp cert ledger)
    {mac : Bool} {next : Nat} (hev : ClientEvent.reply m mac next ∈ evs)
    (hv : Vouches E hash tentative rid m.rep.digest m mac) (hview : tentative = true →
      ∀ v ∈ cert.vals, v.m.rep.digest = m.rep.digest → v.m.rep.view = m.rep.view)
    (hcounts : Certificate.Inv E ⟨cert', m :: ledger⟩) (hcomp : cert'.complete = cert.complete)
    (hmine : cert'.mym = cert.mym) (hnew : ∀ w ∈ cert'.vals, w ∈ cert.vals ∨
      w.m ∈ m :: ledger ∧ w.m.rep.digest = m.rep.digest ∧
        (tentative = true → w.m.rep.view = m.rep.view))
    (hold : ∀ v ∈ cert.vals, ∃ w ∈ cert'.vals, w.m.rep.digest = v.m.rep.digest)
    (hself : ∃ w ∈ cert'.vals, w.m.rep.digest = m.rep.digest) :
    RepsInv E hash evs rid tentative comp cert' (m :: ledger) := by
  -- the view that the counted messages of a digest have
  have hself_view : ∀ x ∈ m :: ledger, tentative = true →
    m.rep.digest = x.rep.digest → m.rep.view = x.rep.view := by
    intro x hx ht hd
    rcases List.mem_cons.1 hx with rfl | hx
    · rfl
    · obtain ⟨v, hv, hvd⟩ := h.known x hx
      rw [← hview ht v hv (hvd.trans hd.symm)]
      exact h.views ht v hv x hx hvd
  refine ⟨hcounts, hcomp.trans h.complete, hmine.trans h.mine, ?_, ?_, ?_, ?_⟩
  · intro x hx
    rcases List.mem_cons.1 hx with rfl | hx
    · exact ⟨mac, next, hev, hv⟩
    · exact h.vouches x hx
  · intro w hw
    rcases hnew w hw with hw | ⟨hw, -⟩
    · exact List.mem_cons_of_mem _ (h.vals w hw)
    · exact hw
  · intro x hx
    rcases List.mem_cons.1 hx with rfl | hx
    · exact hself
    · obtain ⟨v, hv, hvd⟩ := h.known x hx
      obtain ⟨w, hw, hwd⟩ := hold v hv
      exact ⟨w, hw, hwd.trans hvd⟩
  · intro ht w hw x hx hd
    rcases hnew w hw with hw | ⟨-, hwd, hwv⟩
    · rcases List.mem_cons.1 hx with rfl | hx
      · exact hview ht w hw hd
      · exact h.views ht w hw x hx hd
    · rw [hwv ht]
      exact hself_view x hx ht (hwd.symm.trans hd)

/-- **One reply is added to a certificate of replies.** -/
theorem RepsInv.add (h : RepsInv E hash evs rid tentative comp cert ledger)
    {mac : Bool} {next : Nat} (hev : ClientEvent.reply m mac next ∈ evs)
    (htent : m.rep.isTentative = tentative) (hrid : m.rid = rid)
    (hview : tentative = true → m.verify E hash mac = true → m.rep.replica ∉ cert.bmap →
      ∀ v ∈ cert.vals, v.m.rep.digest = m.rep.digest → v.m.rep.view = m.rep.view)
    {b : Bool} (ha : Certificate.add E cert m (m.verify E hash mac) = some (cert', b)) :
    ∃ ledger', RepsInv E hash evs rid tentative comp cert' ledger' := by
  have hcounts := inv_add h.counts ha
  obtain ⟨rfl, hver, -, -, hnew, hcase⟩ | ⟨rfl, hcase⟩ := add_cases ha
  · rw [if_pos rfl] at hcounts
    have hv : Vouches E hash tentative rid m.rep.digest m mac := ⟨hver, htent, hrid, rfl⟩
    have hview' := fun ht => hview ht hver hnew
    refine ⟨m :: ledger, ?_⟩
    obtain ⟨i, v, c, hvi, hmatch, rfl, -⟩ | ⟨-, rfl⟩ := hcase
    · have hi := (List.getElem?_eq_some_iff.1 hvi).1
      have hmem := List.mem_of_getElem? hvi
      have hd := digest_of_match hmatch
      have habs : (MessageVal.absorb v m).m = m ∨ (MessageVal.absorb v m).m = v.m := by
        unfold MessageVal.absorb
        dsimp only
        split
        · exact .inl rfl
        · exact .inr rfl
      have habsd : (MessageVal.absorb v m).m.rep.digest = m.rep.digest := by
        rcases habs with he | he <;> rw [he]
        exact hd
      have hset : MessageVal.absorb v m ∈ cert.vals.set i (MessageVal.absorb v m) :=
        List.mem_set hi _
      refine h.push hev hv hview' hcounts rfl rfl (fun w hw => ?_) (fun w hw => ?_) ⟨_, hset, habsd⟩
      · rcases List.mem_or_eq_of_mem_set hw with hw | rfl
        · exact .inl hw
        · refine .inr ⟨?_, habsd, fun ht => ?_⟩
          · rcases habs with he | he <;> rw [he]
            · exact List.mem_cons_self
            · exact List.mem_cons_of_mem _ (h.vals v hmem)
          · rcases habs with he | he <;> rw [he]
            exact hview' ht v hmem hd
      · by_cases hwv : w = v
        · subst hwv
          exact ⟨_, hset, habsd.trans hd.symm⟩
        · obtain ⟨j, hj⟩ := List.mem_iff_getElem?.1 hw
          have hij : i ≠ j := by
            rintro rfl
            rw [hvi] at hj
            exact hwv (Option.some.inj hj).symm
          refine ⟨w, List.mem_iff_getElem?.2 ⟨j, ?_⟩, rfl⟩
          rw [List.getElem?_set_ne hij]
          exact hj
    · refine h.push hev hv hview' hcounts rfl rfl (fun w hw => ?_)
        (fun w hw => ⟨w, List.mem_append_left _ hw, rfl⟩)
        ⟨⟨m, 1⟩, List.mem_append_right _ (List.mem_singleton.2 rfl), rfl⟩
      rcases List.mem_append.1 hw with hw | hw
      · exact .inl hw
      · obtain rfl := List.mem_singleton.1 hw
        exact .inr ⟨List.mem_cons_self, rfl, fun _ => rfl⟩
  · -- the reply is refused
    have hkeep :
      ∀ bmap, Certificate.Inv E ⟨{ cert with bmap }, if cert.vals.isEmpty then [] else ledger⟩ →
        ∃ ledger', RepsInv E hash evs rid tentative comp { cert with bmap } ledger' := by
      intro bmap hc
      refine ⟨_, hc, h.complete, h.mine, fun x hx =>
        ?_, fun v hv => ?_, fun x hx => ?_, fun ht v hv x hx => ?_⟩
      · split at hx
        · cases hx
        · exact h.vouches x hx
      · cases hvals : cert.vals with
        | nil =>
          rw [hvals] at hv
          cases hv
        | cons w ws => simpa [hvals] using h.vals v hv
      · split at hx
        · cases hx
        · exact h.known x hx
      · split at hx
        · cases hx
        · exact h.views ht v hv x hx
    rw [if_neg (by simp)] at hcounts
    rcases hcase with rfl | rfl | rfl
    · exact hkeep cert'.bmap hcounts
    · exact hkeep _ hcounts
    · exact ⟨[], h.clear rid⟩

/-- The replicas behind a complete certificate of replies. -/
theorem RepsInv.quorum (h : RepsInv E hash evs rid tentative comp cert ledger)
    (hcomp : cert.isComplete = true) {cv : ReplyMsg} (hcv : cert.cvalue = some cv) :
    ∃ ids : List Nat, ids.Nodup ∧ comp ≤ ids.length ∧ ∀ i ∈ ids,
      ∃ m mac next, ClientEvent.reply m mac next ∈ evs ∧
      m.rep.replica = i ∧ Vouches E hash tentative rid cv.rep.digest m mac ∧
        (tentative = true → m.rep.view = cv.rep.view) := by
  refine ⟨supporters ledger cv, h.counts.ledger.nodup.sublist (List.filter_sublist.map _),
    ?_, fun i hi => ?_⟩
  · have hle : cert.complete ≤ cert.numCorrect := by simpa [Certificate.isComplete] using hcomp
    rw [h.complete] at hle
    exact hle.trans (h.counts.correct_count hcv).1
  · obtain ⟨m, hm, rfl⟩ := List.mem_map.1 hi
    obtain ⟨hmem, hmatch⟩ := List.mem_filter.1 hm
    have hd : cv.rep.digest = m.rep.digest := matches_replyMsg.1 (of_decide_eq_true hmatch)
    obtain ⟨mac, next, hev, hv⟩ := h.vouches m hmem
    refine ⟨m, mac, next, hev, rfl, by rw [hd]; exact hv, fun ht => ?_⟩
    obtain ⟨k, v, -, hv, rfl⟩ : ∃ k v, cert.c = some k ∧ cert.vals[k]? = some v ∧ v.m = cv := by
      simpa [Certificate.cvalue, cval, Option.bind_eq_some_iff, Option.map_eq_some_iff] using hcv
    exact (h.views ht v (List.mem_of_getElem? hv) m hmem hd).symm

theorem RepsInv.endorsed (h : RepsInv E hash evs rid tentative comp cert ledger)
    (hcomp : cert.isComplete = true) {cv : ReplyMsg} (hcv : cert.cvalue = some cv)
    (hc : comp = if tentative then 2 * E.f + 1 else E.f + 1) :
    Endorsed E hash evs rid cv.rep.digest := by
  obtain ⟨ids, hnodup, hlen, hids⟩ := h.quorum hcomp hcv
  cases tentative with
  | false =>
    refine .inl ⟨ids, hnodup, by simpa [hc] using hlen, fun i hi => ?_⟩
    obtain ⟨m, mac, next, hev, hid, hv, -⟩ := hids i hi
    exact ⟨m, mac, next, hev, hid, hv⟩
  | true =>
    refine .inr ⟨cv.rep.view, ids, hnodup, by simpa [hc] using hlen, fun i hi => ?_⟩
    obtain ⟨m, mac, next, hev, hid, hv, hview⟩ := hids i hi
    exact ⟨m, mac, next, hev, hid, hv, hview rfl⟩

/-- The number of replies that a certificate needs. -/
def needed (E : Env) (tentative : Bool) : Nat := if tentative then 2 * E.f + 1 else E.f + 1

/-- Both certificates count replies of the outstanding request. -/
def Inv (E : Env) (hash : List UInt8 → Digest) (evs : List ClientEvent) (s : Client) : Prop :=
  ∀ tentative, ∃ ledger,
    RepsInv E hash evs s.outRid tentative (needed E tentative) (s.reps tentative) ledger

variable {s s' : Client}

theorem inv_init (rid : Nat) : Inv E hash [] (init E rid) := by
  intro tentative
  have hcert : (init E rid).reps tentative = ⟨[], [], none, needed E tentative, none⟩ := by
    cases tentative <;> simp [init, reps, Certificate.new, needed]
  have hpos : 0 < needed E tentative := by
    unfold needed
    split <;> omega
  rw [hcert]
  exact ⟨[], repsInv_nil hpos []⟩

theorem Inv.mono (h : Inv E hash evs s) (ev : ClientEvent) : Inv E hash (evs ++ [ev]) s := by
  intro tentative
  obtain ⟨ledger, hl⟩ := h tentative
  exact ⟨ledger, hl.mono ev⟩

theorem Inv.finish (h : Inv E hash evs s) (next : Nat) : Inv E hash evs (s.finish next) := by
  intro tentative
  obtain ⟨ledger, hl⟩ := h tentative
  refine ⟨[], ?_⟩
  have hcert : (s.finish next).reps tentative = (s.reps tentative).clear := by
    cases tentative <;> rfl
  rw [hcert]
  exact hl.clear next

theorem Inv.newKey (h : Inv E hash evs s) : Inv E hash evs s.newKey := by
  intro tentative
  obtain ⟨ledger, hl⟩ := h tentative
  refine ⟨[], ?_⟩
  have hcert : s.newKey.reps tentative = (s.reps tentative).clear := by cases tentative <;> rfl
  rw [hcert]
  exact hl.clear s.outRid

theorem Inv.setReps (h : Inv E hash evs s) (t : Bool) {l : List ReplyMsg}
    (hl : RepsInv E hash evs s.outRid t (needed E t) cert l) :
    Inv E hash evs (s.setReps t cert) := by
  intro tentative
  obtain ⟨ledger, hled⟩ := h tentative
  cases t <;> cases tentative
  · exact ⟨l, hl⟩
  · exact ⟨ledger, hled⟩
  · exact ⟨ledger, hled⟩
  · exact ⟨l, hl⟩

/-- A verified full reply hashes to its digest. -/
theorem verify_full {mac : Bool} (hv : m.verify E hash mac = true) (hfull : m.full = true) :
    hash m.contents = m.rep.digest := by
  simp only [ReplyMsg.verify, Bool.and_eq_true, Bool.or_eq_true,
    hfull, Bool.not_true, Bool.false_eq_true, false_or, beq_iff_eq] at hv
  exact hv.1.2

/-- **One event**: the certificates go on counting replies of one digest and, if they are tentative,
of one view, and a reply that is returned has enough of them behind it. -/
theorem Inv.handle (h : Inv E hash evs s) {ev : ClientEvent} (hok : SameView E hash s ev)
    {r : Option ReplyMsg} (hs : s.handle E hash ev = some (s', r)) :
    Inv E hash (evs ++ [ev]) s' ∧ ∀ rep, r = some rep →
      Sound E hash (evs ++ [ev]) s.outRid rep := by
  cases ev with
  | sendRequest =>
    obtain ⟨rfl, rfl⟩ := Prod.mk.inj (Option.some.inj hs)
    exact ⟨h.mono .sendRequest, by simp⟩
  | newKey =>
    obtain ⟨rfl, rfl⟩ := Prod.mk.inj (Option.some.inj hs)
    exact ⟨(h.mono .newKey).newKey, by simp⟩
  | reply m mac next =>
    have hev : ClientEvent.reply m mac next ∈ evs ++ [.reply m mac next] := by simp
    replace h := h.mono (.reply m mac next)
    obtain ⟨ledger, hled⟩ := h m.rep.isTentative
    unfold Client.handle recvReply at hs
    dsimp only at hs
    split at hs
    · obtain ⟨rfl, rfl⟩ := Prod.mk.inj (Option.some.inj hs)
      exact ⟨h, by simp⟩
    rename_i hrid
    have hrid : m.rid = s.outRid := by
      simp only [Bool.or_eq_true, Bool.not_eq_true', decide_eq_true_eq, not_or, not_not] at hrid
      exact hrid.2
    split at hs
    · rename_i hcomp
      split at hs
      · rename_i hall
        obtain ⟨rfl, rfl⟩ := Prod.mk.inj (Option.some.inj hs)
        refine ⟨h.finish next, fun rep hrep => ?_⟩
        obtain rfl := Option.some.inj hrep
        simp only [Bool.and_eq_true, Option.any_eq_true, beq_iff_eq] at hall
        obtain ⟨⟨hfull, hver⟩, cv, hcv, hmatch⟩ := hall
        refine ⟨hfull, verify_full hver hfull, hrid, ?_⟩
        rw [digest_of_match hmatch]
        exact hled.endorsed hcomp hcv rfl
      · obtain ⟨rfl, rfl⟩ := Prod.mk.inj (Option.some.inj hs)
        exact ⟨h, by simp⟩
    · rename_i hcomp
      simp only [Option.bind_eq_bind, Option.bind_eq_some_iff] at hs
      obtain ⟨⟨cert, b⟩, ha, hs⟩ := hs
      have hview : m.rep.isTentative = true → m.verify E hash mac = true →
        m.rep.replica ∉ (s.reps m.rep.isTentative).bmap →
          ∀ v ∈ (s.reps m.rep.isTentative).vals, v.m.rep.digest = m.rep.digest →
            v.m.rep.view = m.rep.view := by
        intro ht hver hnew
        rw [ht] at hcomp hnew ⊢
        exact hok ht hrid hver (by simpa [reps] using hcomp) hnew
      obtain ⟨l, hl⟩ := hled.add hev rfl hrid hview ha
      split at hs
      · rename_i hdone
        obtain ⟨rfl, rfl⟩ := Prod.mk.inj (Option.some.inj hs)
        refine ⟨(h.setReps _ hl).finish next, fun rep hrep => ?_⟩
        simp only [Bool.and_eq_true, Option.any_eq_true] at hdone
        obtain ⟨hdone, cv, hcv, hfull⟩ := hdone
        obtain rfl : cv = rep := by
          rw [hcv] at hrep
          exact Option.some.inj hrep
        obtain ⟨k, v, -, hvk, rfl⟩ : ∃ k v, cert.c = some k ∧
          cert.vals[k]? = some v ∧ v.m = cv := by
          simpa [Certificate.cvalue, cval, Option.bind_eq_some_iff,
            Option.map_eq_some_iff] using hcv
        obtain ⟨mac', next', -, hver, -, hrid', -⟩ :=
          hl.vouches _ (hl.vals v (List.mem_of_getElem? hvk))
        exact ⟨hfull, verify_full hver hfull, hrid', hl.endorsed hdone hcv rfl⟩
      · obtain ⟨rfl, rfl⟩ := Prod.mk.inj (Option.some.inj hs)
        exact ⟨h.setReps _ hl, by simp⟩

/-- In a run in which tentative replies of different views are never counted together, the invariant
holds. -/
theorem inv_run (evs' : List ClientEvent) (h : Inv E hash evs s)
    (hm : Run.Meets (step E hash) (SameView E hash) s evs')
    (hr : Run.run (step E hash) s evs' = some s') : Inv E hash (evs ++ evs') s' := by
  induction evs' generalizing evs s with
  | nil =>
    obtain rfl := Option.some.inj hr
    simpa using h
  | cons ev evs' ih =>
    obtain ⟨t, ht, hr⟩ := Run.run_cons.1 hr
    obtain ⟨⟨t', r⟩, hhandle, rfl⟩ := Option.map_eq_some_iff.1 ht
    have := ih (h.handle hm.1 hhandle).1 (hm.2 _ ht) hr
    simpa using this

end Client

/-! ## The static build -/

/-- `special_region::replies`, which has `F + 1` blocks of `Max_rep_size` bytes. `store_reply`
checks no size. -/
def replyBlocks (P : Params) (maxReplySize : Nat) : Blocks Nat ReplyMsg where
  addr i := i
  limit := P.regionF + 1
  fits m := m.size ≤ maxReplySize + 96

structure StaticClient where
  outRid : Nat
  outReq : Bool
  tReps : StaticCert Nat
  cReps : StaticCert Nat
  replies : Nat → ReplyMsg

namespace StaticClient

variable (E : Env) (hash : List UInt8 → Digest) (B : Blocks Nat ReplyMsg)

def init (rid : Nat) (replies : Nat → ReplyMsg) : StaticClient where
  outRid := rid
  outReq := false
  tReps := (Held.new E (2 * E.f + 1) replies).cert
  cReps := (Held.new E (E.f + 1) replies).cert
  replies := replies

/-- The certificate that counts a reply, with the blocks. -/
def reps (s : StaticClient) (tentative : Bool) : Held Nat ReplyMsg :=
  ⟨if tentative then s.tReps else s.cReps, s.replies⟩

def setReps (s : StaticClient) (tentative : Bool) (r : Held Nat ReplyMsg) : StaticClient :=
  if tentative then
    { s with tReps := r.cert, replies := r.mem } else { s with cReps := r.cert, replies := r.mem }

def finish (s : StaticClient) (next : Nat) : StaticClient :=
  ⟨next, false, s.tReps.clear, s.cReps.clear, s.replies⟩

def recvReply (s : StaticClient) (m : ReplyMsg) (mac : Bool) (next : Nat) :
    Option (StaticClient × Option ReplyMsg) :=
  let t := m.rep.isTentative
  if !s.outReq || m.rid ≠ s.outRid then some (s, none)
  else if (s.reps t).isComplete then
    if m.full && m.verify E hash mac && (s.reps t).cval.any
      fun v => CertMsg.matchMsg m (s.replies v.m) == some true then
      some (s.finish next, some m)
    else some (s, none)
  else do
    let (r, _) ← (s.reps t).add E B m (m.verify E hash mac)
    let s := s.setReps t r
    if r.isComplete && r.cval.any fun v => (r.mem v.m).full then
      some (s.finish next, r.cval.map fun v => r.mem v.m) else some (s, none)

def newKey (s : StaticClient) : StaticClient :=
  { s with tReps := s.tReps.clear, cReps := s.cReps.clear }

def handle (s : StaticClient) : ClientEvent → Option (StaticClient × Option ReplyMsg)
  | .sendRequest => some ({ s with outReq := true }, none)
  | .reply m mac next => s.recvReply E hash B m mac next
  | .newKey => some (s.newKey, none)

def step (s : StaticClient) (ev : ClientEvent) : Option StaticClient :=
  (s.handle E hash B ev).map Prod.fst

/-- The client of the heap build that it stands for. -/
def view (s : StaticClient) : Client :=
  ⟨s.outRid, s.outReq, (s.reps true).view, (s.reps false).view⟩

/-- A reply is not stored over one of the other certificate. -/
def Unshared (s : StaticClient) : ClientEvent → Prop
  | .reply m mac _ => m.rid = s.outRid → (s.reps m.rep.isTentative).isComplete = false →
      (s.reps m.rep.isTentative).view.keepsAdd E m (m.verify E hash mac) = true →
      ∀ a, (s.reps m.rep.isTentative).target B m = some a → a ∉ (s.reps !m.rep.isTentative).addrs
  | _ => True

variable {E hash B} {s s' : StaticClient}

@[simp] theorem view_reps (s : StaticClient) (t : Bool) :
    s.view.reps t = (s.reps t).view := by cases t <;> rfl

theorem view_setReps {r : Held Nat ReplyMsg} {t : Bool}
    (hother : (⟨(s.reps !t).cert, r.mem⟩ : Held Nat ReplyMsg).view = (s.reps !t).view) :
    (s.setReps t r).view = s.view.setReps t r.view := by
  cases t with
  | false =>
    have h : (⟨s.tReps, r.mem⟩ : Held Nat ReplyMsg).view = (s.reps true).view := hother
    unfold view Client.setReps setReps
    simp only [Bool.false_eq_true, if_false]
    rw [show reps { s with cReps := r.cert, replies := r.mem } true = ⟨s.tReps, r.mem⟩ from rfl, h]
    rfl
  | true =>
    have h : (⟨s.cReps, r.mem⟩ : Held Nat ReplyMsg).view = (s.reps false).view := hother
    unfold view Client.setReps setReps
    simp only [if_true]
    rw [show reps { s with tReps := r.cert, replies := r.mem } false = ⟨s.cReps, r.mem⟩ from rfl, h]
    rfl

/-- Both certificates have their values in blocks of their indices. -/
def Placed (E : Env) (B : Blocks Nat ReplyMsg) (s : StaticClient) : Prop :=
  ∀ t, (s.reps t).Placed E B

theorem Placed.setReps (h : s.Placed E B) {t : Bool} {r : Held Nat ReplyMsg} (hr : r.Placed E B)
    (hmem : ∀ a ∈ (s.reps !t).addrs, r.mem a = s.replies a) :
    (s.setReps t r).Placed E B ∧ (s.setReps t r).view = s.view.setReps t r.view := by
  obtain ⟨hother, hread⟩ := (h !t).frame (t := ⟨(s.reps !t).cert, r.mem⟩) rfl hmem
  have hmym : (s.reps !t).cert.mym.map r.mem = (s.reps !t).cert.mym.map s.replies := by
    cases hm : (s.reps !t).cert.mym with
    | none => rfl
    | some a =>
      obtain ⟨⟨k, -, hk⟩, -⟩ := (h !t).mym a hm
      simp only [Option.map_some, hmem a (List.mem_of_getElem? hk)]
  refine ⟨fun t' => ?_, view_setReps ?_⟩
  · cases t <;> cases t'
    · exact hr
    · exact hother
    · exact hother
    · exact hr
  · unfold Held.view
    rw [hread, hmym]
    rfl

theorem placed_clear (s : StaticClient) (outRid : Nat) (outReq : Bool) :
    (⟨outRid, outReq, s.tReps.clear, s.cReps.clear, s.replies⟩ : StaticClient).Placed E B := by
  intro t
  cases t
  · exact Held.placed_clear (s := s.reps false)
  · exact Held.placed_clear (s := s.reps true)

/-- **One event in the two builds**: where no reply is stored over one of the other certificate, the
static build does what the heap build does. -/
theorem handle_view (hinj : Function.Injective B.addr) (hlim : E.f + 1 ≤ B.limit) (h : s.Placed E B)
    {ev : ClientEvent} (hok : Unshared E hash B s ev) {r : Option ReplyMsg}
    (hs : s.handle E hash B ev = some (s', r)) :
    s.view.handle E hash ev = some (s'.view, r) ∧ s'.Placed E B := by
  cases ev with
  | sendRequest =>
    obtain ⟨rfl, rfl⟩ := Prod.mk.inj (Option.some.inj hs)
    exact ⟨rfl, fun t => h t⟩
  | newKey =>
    obtain ⟨rfl, rfl⟩ := Prod.mk.inj (Option.some.inj hs)
    exact ⟨rfl, placed_clear s _ _⟩
  | reply m mac next =>
    unfold handle recvReply at hs
    unfold Client.handle Client.recvReply
    dsimp only at hs ⊢
    have hreq : s.view.outReq = s.outReq := rfl
    have hout : s.view.outRid = s.outRid := rfl
    rw [hreq, hout, view_reps, Held.isComplete_view, Held.cvalue_view]
    split at hs
    · rename_i hignore
      rw [if_pos hignore]
      obtain ⟨rfl, rfl⟩ := Prod.mk.inj (Option.some.inj hs)
      exact ⟨rfl, h⟩
    rename_i hignore
    rw [if_neg hignore]
    have hrid : m.rid = s.outRid := by
      simp only [Bool.or_eq_true, Bool.not_eq_true', decide_eq_true_eq, not_or, not_not] at hignore
      exact hignore.2
    split at hs
    · rename_i hcomp
      rw [if_pos hcomp, Option.any_map]
      split at hs
      · rename_i hall
        obtain ⟨rfl, rfl⟩ := Prod.mk.inj (Option.some.inj hs)
        exact ⟨if_pos hall, placed_clear s _ _⟩
      · rename_i hall
        obtain ⟨rfl, rfl⟩ := Prod.mk.inj (Option.some.inj hs)
        exact ⟨if_neg hall, h⟩
    · rename_i hcomp
      rw [if_neg hcomp]
      simp only [Option.bind_eq_bind, Option.bind_eq_some_iff] at hs ⊢
      obtain ⟨⟨t, b⟩, ha, hs⟩ := hs
      have hsim := Held.add_sim (m := m) hinj hlim (h m.rep.isTentative) (m.verify E hash mac)
      rw [ha] at hsim
      obtain ⟨hview, hplaced⟩ : (s.reps m.rep.isTentative).view.add E m (m.verify E hash mac) =
        some (t.view, b) ∧ t.Placed E B := by
        generalize hx : (s.reps m.rep.isTentative).view.add E m (m.verify E hash mac) = x at hsim
        cases hsim with
        | same _ _ hp _ => exact ⟨rfl, hp⟩
      have hmem : ∀ a ∈ (s.reps !m.rep.isTentative).addrs, t.mem a = s.replies a := by
        intro a hmem
        refine Held.add_mem (s := s.reps m.rep.isTentative) ha fun hkeep b hb he => ?_
        subst he
        exact hok hrid (by simpa using hcomp) hkeep a hb hmem
      obtain ⟨hplaced', hset⟩ := h.setReps hplaced hmem
      rw [hview]
      refine ⟨⟨_, rfl, ?_⟩, ?_⟩
      · dsimp only
        rw [Held.isComplete_view, Held.cvalue_view, Option.any_map, ← hset]
        split at hs
        · rename_i hdone
          obtain ⟨rfl, rfl⟩ := Prod.mk.inj (Option.some.inj hs)
          exact if_pos hdone
        · rename_i hdone
          obtain ⟨rfl, rfl⟩ := Prod.mk.inj (Option.some.inj hs)
          exact if_neg hdone
      · split at hs
        · obtain ⟨rfl, rfl⟩ := Prod.mk.inj (Option.some.inj hs)
          exact placed_clear _ _ _
        · obtain ⟨rfl, rfl⟩ := Prod.mk.inj (Option.some.inj hs)
          exact hplaced'

theorem placed_init (rid : Nat) (replies : Nat → ReplyMsg) : (init E rid replies).Placed E B := by
  intro t
  cases t <;> refine ⟨?_, ?_, .inl ⟨?_, ?_⟩, ?_⟩ <;> simp [reps, init, Held.new, Held.addrs]

/-- A run of the static build in which the certificates do not get into each other's way is a run of
the heap build. -/
theorem run_view (hinj : Function.Injective B.addr) (hlim : E.f + 1 ≤ B.limit)
    (evs : List ClientEvent) (h : s.Placed E B) (hm : Run.Meets
      (step E hash B) (fun s ev => Client.SameView E hash s.view ev ∧ Unshared E hash B s ev) s evs)
    (hr : Run.run (step E hash B) s evs = some s') :
    Run.run (Client.step E hash) s.view evs = some s'.view ∧
      Run.Meets (Client.step E hash) (Client.SameView E hash) s.view evs ∧
      s'.Placed E B := by
  induction evs generalizing s with
  | nil =>
    obtain rfl := Option.some.inj hr
    exact ⟨rfl, trivial, h⟩
  | cons ev evs ih =>
    obtain ⟨t, ht, hr⟩ := Run.run_cons.1 hr
    obtain ⟨⟨t', r⟩, hhandle, rfl⟩ := Option.map_eq_some_iff.1 ht
    obtain ⟨hview, hplaced⟩ := handle_view hinj hlim h hm.1.2 hhandle
    obtain ⟨hrun, hmeets, hplaced'⟩ := ih hplaced (hm.2 _ ht) hr
    have hstep : Client.step E hash s.view ev = some t'.view := by
      unfold Client.step
      rw [hview]
      rfl
    refine ⟨Run.run_cons.2 ⟨_, hstep, hrun⟩, ⟨hm.1.1, fun u hu => ?_⟩, hplaced'⟩
    rw [hstep] at hu
    obtain rfl := Option.some.inj hu
    exact hmeets

end StaticClient

/-- **A result is right** in every run in which a tentative reply is counted only with replies of
its view, in the heap build; in the static build also no reply may be stored over one that the other
certificate has. -/
theorem client_sound (cfg : Cfg) (id maxReplySize : Nat) (hash : List UInt8 → Digest) :
    (∀ rid evs ev s s' rep,
        Run.run (Client.step (cfg.env id) hash) (Client.init (cfg.env id) rid) evs = some s →
      Run.Meets (Client.step (cfg.env id) hash) (Client.SameView (cfg.env id) hash)
        (Client.init (cfg.env id) rid) (evs ++ [ev]) →
      s.handle (cfg.env id) hash ev = some (s', some rep) →
        Client.Sound (cfg.env id) hash (evs ++ [ev]) s.outRid rep) ∧
    ∀ rid replies evs ev s s' rep,
      Run.run (StaticClient.step (cfg.env id) hash (replyBlocks cfg.P maxReplySize))
        (StaticClient.init (cfg.env id) rid replies) evs = some s →
      Run.Meets (StaticClient.step (cfg.env id) hash (replyBlocks cfg.P maxReplySize))
        (fun s ev => Client.SameView (cfg.env id) hash s.view ev ∧
          StaticClient.Unshared (cfg.env id) hash (replyBlocks cfg.P maxReplySize) s ev)
        (StaticClient.init (cfg.env id) rid replies) (evs ++ [ev]) →
      s.handle (cfg.env id) hash (replyBlocks cfg.P maxReplySize) ev = some (s', some rep) →
      Client.Sound (cfg.env id) hash (evs ++ [ev]) s.outRid rep := by
  have hheap : ∀ rid evs ev s s' rep,
    Run.run (Client.step (cfg.env id) hash) (Client.init (cfg.env id) rid) evs = some s →
      Run.Meets (Client.step (cfg.env id) hash) (Client.SameView (cfg.env id) hash)
        (Client.init (cfg.env id) rid) (evs ++ [ev]) →
      s.handle (cfg.env id) hash ev = some (s', some rep) →
        Client.Sound (cfg.env id) hash (evs ++ [ev]) s.outRid rep := by
    intro rid evs ev s s' rep hr hm hs
    obtain ⟨hm, hok⟩ := Run.meets_append hm hr
    have hinv := Client.inv_run evs (Client.inv_init rid) hm hr
    exact (hinv.handle hok.1 hs).2 rep rfl
  refine ⟨hheap, fun rid replies evs ev s s' rep hr hm hs => ?_⟩
  have hinj : Function.Injective (replyBlocks cfg.P maxReplySize).addr := fun _ _ he => he
  have hlim : (cfg.env id).f + 1 ≤ (replyBlocks cfg.P maxReplySize).limit := by
    have := cfg.n_le
    simp only [Cfg.env, replyBlocks, Params.regionF]
    omega
  have hplaced :=
    StaticClient.placed_init (E := cfg.env id) (B := replyBlocks cfg.P maxReplySize) rid replies
  have hrun : Run.run (StaticClient.step (cfg.env id) hash (replyBlocks cfg.P maxReplySize))
    (StaticClient.init (cfg.env id) rid replies)
      (evs ++ [ev]) = some s' := by
    refine Run.run_append.2 ⟨s, hr, Run.run_cons.2 ⟨s', ?_, rfl⟩⟩
    unfold StaticClient.step
    rw [hs]
    rfl
  obtain ⟨hmeets, hok⟩ := Run.meets_append hm hr
  obtain ⟨hrun', -, hplaced'⟩ := StaticClient.run_view hinj hlim evs hplaced hmeets hr
  obtain ⟨-, hmeets', -⟩ := StaticClient.run_view hinj hlim (evs ++ [ev]) hplaced hm hrun
  exact hheap rid evs ev s.view s'.view rep hrun' hmeets'
    (StaticClient.handle_view hinj hlim hplaced' hok.1.2 hs).1

/-! ## Replies of different views -/

/-- A full tentative reply of replica `i` in view `v`, with an empty result. -/
def emptyReply (v : Int) (i : Nat) : ReplyMsg := ⟨⟨v, 7, i, 0, true⟩, 5, List.replicate 32 0⟩

/-- Replicas 0, 1 and 2 have executed the request tentatively in the views 0, 1 and 2. -/
def threeViews : List ClientEvent :=
  [.sendRequest, .reply (emptyReply 0 0) true 6, .reply (emptyReply 1 1) true 6]

/-- The client takes three tentative replies of three views for a result. -/
theorem threeViews_unsound :
    ¬ ∀ rid evs ev s s' rep, Run.run (Client.step (Replica.fourReplicas.env 4)
        fun _ => 7) (Client.init (Replica.fourReplicas.env 4) rid) evs =
        some s → s.handle (Replica.fourReplicas.env 4) (fun _ => 7) ev = some (s', some rep) →
      Client.Sound (Replica.fourReplicas.env 4) (fun _ => 7) (evs ++ [ev]) s.outRid rep := by
  intro hall
  obtain ⟨s, hs⟩ : ∃ s, Run.run (Client.step (Replica.fourReplicas.env 4)
    fun _ => 7) (Client.init (Replica.fourReplicas.env 4) 5)
      threeViews = some s := ⟨_, rfl⟩
  have hlast :
    ∃ s', s.handle (Replica.fourReplicas.env 4) (fun _ => 7) (.reply (emptyReply 2 2) true 6) =
      some (s', some (emptyReply 0 0)) := by
    obtain rfl := Option.some.inj hs
    exact ⟨_, rfl⟩
  obtain ⟨s', hs'⟩ := hlast
  have hevs : ∀ m mac next,
    ClientEvent.reply m mac next ∈ threeViews ++ [.reply (emptyReply 2 2) true 6] →
      m.rep.isTentative = true ∧ m.rep.view = m.rep.replica := by
    intro m mac next hm
    simp only [threeViews, List.cons_append, List.nil_append,
      List.mem_cons, List.not_mem_nil, or_false, reduceCtorEq, false_or,
      ClientEvent.reply.injEq] at hm
    rcases hm with ⟨rfl, -⟩ | ⟨rfl, -⟩ | ⟨rfl, -⟩ <;> exact ⟨rfl, rfl⟩
  obtain ⟨-, -, -, ⟨ids, -, hlen, hids⟩ | ⟨view, ids, hnodup, hlen, hids⟩⟩ :=
    hall 5 threeViews _ s s' _ hs hs'
  · obtain ⟨i, hi⟩ := List.exists_mem_of_length_pos (show 0 < ids.length by omega)
    obtain ⟨m, mac, next, hev, -, -, htent, -⟩ := hids i hi
    rw [(hevs m mac next hev).1] at htent
    cases htent
  · -- each of the three replicas would have to be the one whose number is the view
    have hsame : ∀ i ∈ ids, (i : Int) = view := by
      intro i hi
      obtain ⟨m, mac, next, hev, rfl, -, hview⟩ := hids i hi
      rw [← (hevs m mac next hev).2, hview]
    have hlen : 3 ≤ ids.length := hlen
    match ids, hlen, hnodup, hsame with
    | i :: j :: _, _, hnodup, hsame =>
      have hi := hsame i (by simp)
      have hj := hsame j (by simp)
      have : i = j := by omega
      simp [this] at hnodup

/-- Two committed replies, in the two builds. -/
theorem client_sound_two :
    let r := fun i : Nat => (⟨⟨0, 7, i, 0, false⟩, 5, List.replicate 32 0⟩ : ReplyMsg)
    let evs := [ClientEvent.sendRequest, .reply (r 1) true 6, .reply (r 2) true 6]
    Client.Sound (Replica.fourReplicas.env 4) (fun _ => 7) evs 5 (r 1) ∧
      ∃ s s' : StaticClient, s.handle (Replica.fourReplicas.env 4)
        (fun _ => 7) (replyBlocks Replica.fourReplicas.P 8192) (.reply (r 2) true 6) =
        some (s', some (r 1)) ∧
          Client.Sound (Replica.fourReplicas.env 4) (fun _ => 7) evs s.outRid (r 1) := by
  intro r evs
  have h := client_sound Replica.fourReplicas 4 8192 fun _ => 7
  constructor
  · refine h.1 5 [.sendRequest, .reply (r 1) true 6] (.reply (r 2) true 6) _ _ _ rfl ?_ rfl
    refine ⟨trivial, fun t ht => ⟨fun h => ?_, fun t' ht' => ⟨fun h => ?_, fun _ _ => trivial⟩⟩⟩ <;>
      cases h
  · have hnone : ∀ a : Nat, a ∉ ([] : List Nat) := fun a => List.not_mem_nil
    refine ⟨_, _, rfl, h.2 5 (fun _ => r 0) [.sendRequest,
      .reply (r 1) true 6] (.reply (r 2) true 6) _ _ _ rfl ?_ rfl⟩
    refine ⟨⟨trivial, trivial⟩, fun t ht => ?_⟩
    obtain rfl := Option.some.inj ht
    refine ⟨⟨fun h => (by cases h), fun _ _ _ a _ => hnone a⟩, fun t ht => ?_⟩
    obtain rfl := Option.some.inj ht
    exact ⟨⟨fun h => (by cases h), fun _ _ _ a _ => hnone a⟩, fun _ _ => trivial⟩

end TinyBFT
