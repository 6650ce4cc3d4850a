import TinyBFT.PrePrepareBytes
import TinyBFT.ReqQueue

/-!
# Batching (`Pre_prepare.cc`, `Req_queue.cc`)

The primary takes requests off the front of `rqueue` as long as they fit, and sends them in one
pre-prepare.

| here | there |
| --- | --- |
| `Queues.first`    | `first` (`Req_queue.h:91-97`) |
| `maxReq`          | `max_req - requests()` (`Pre_prepare.cc:41-42`) |
| `fillLoop`, `fill` | `fill` (`Pre_prepare.cc:30-98`); `msize` is `msize()`, and `maxNd` is `max_nd_bytes()` |
| `contents`        | `contents()` of a request in the queue: `size()` bytes |
| `nonDetChoices`   | the `comp_ndet` of the service (`libbyz.h:169-175`) |
| `Admitted`        | a request that `handle` puts into the queue: one that `verify` has accepted (`Replica.cc:433-443`) |
| `Backup`          | a replica that gets the message in the view of its sender |
| `maxRequestSize`  | `max_request_size` (`Request.h:12-41`) |

A request is copied as it is into the message, with what its `size()` covers. The backup parses it
where it lies, and in front of other bytes than the primary: a request that is shorter than it says
need not verify there (`fill_batched_iff`).

`Queues.Holds` is about the states in which the slot of every request in `rqueue` holds that
request. In the static build the two queues share the slots of the clients, and a read-only request
may have overwritten one: those states are left out here.

What a slot for a request has room for is not what a pre-prepare has room for (`fill_included`,
`fill_blocked`). In the heap build there are no slots: a run there is one with operations on
`rqueue` only, and `slot` is the length of the longest message.
-/

namespace TinyBFT

/-- The assertion of `first` fails for a node without a request. -/
def Queues.first (s : Queues) (ro : Bool) : Option (Option Req) :=
  match (s.queue ro).list.head with
  | none => some none
  | some h => if (s.queue ro).held h then some (some (s.requests h)) else none

theorem Queues.Holds.first {s : Queues} {ro : Bool} {f : Fifo} (h : s.Holds ro f) :
    s.first ro = some f.reqs.head? := by
  have hlist := h.list
  unfold Queues.first
  cases hr : f.reqs with
  | nil =>
    rw [hr] at hlist
    have hh : (s.queue ro).list.head = none := hlist.1
    rw [hh]
    rfl
  | cons r rs =>
    have hmem : r ∈ f.reqs := by rw [hr]; exact List.mem_cons_self
    rw [hr] at hlist
    have hh : (s.queue ro).list.head = some r.cid := hlist.1
    rw [hh]
    simp [(h.held r.cid).2 (List.mem_map_of_mem hmem), h.contents r hmem]

namespace Batching

open Reads Wire PrePrepare PrePrepareBytes

/-! ## The longest prefix that fits -/

def total (rs : List Req) : Nat := (rs.map Req.size).sum

/-- **What is taken**: the prefixes of what is taken are the prefixes that fit. -/
structure LongestPrefix (limit : Int) (q rs : List Req) : Prop where
  front : rs <+: q
  fits : ∀ p, p <+: q → (p <+: rs ↔ p = [] ∨ total p ≤ limit)

/-- Requests from the front as long as they fit. -/
def fitting (limit : Int) : List Req → List Req
  | [] => []
  | r :: rs => if r.size ≤ limit then r :: fitting (limit - r.size) rs else []

theorem longestPrefix_fitting (limit : Int) (q : List Req) :
    LongestPrefix limit q (fitting limit q) := by
  induction q generalizing limit with
  | nil => exact ⟨List.prefix_rfl, fun p hp => by simp [List.prefix_nil.1 hp, fitting]⟩
  | cons r rs ih =>
    unfold fitting
    by_cases h : r.size ≤ limit
    · rw [if_pos h]
      obtain ⟨hpre, hfits⟩ := ih (limit - r.size)
      refine ⟨List.prefix_cons_inj r |>.2 hpre, fun p hp => ?_⟩
      cases p with
      | nil => simp
      | cons x p =>
        obtain ⟨rfl, hp'⟩ := List.cons_prefix_cons.1 hp
        have htotal : (total (x :: p) : Int) = x.size + total p := by simp [total]
        rw [List.cons_prefix_cons, hfits p hp', htotal]
        simp only [true_and, reduceCtorEq, false_or]
        constructor
        · rintro (rfl | h')
          · simpa [total] using h
          · omega
        · exact fun h' => .inr (by omega)
    · rw [if_neg h]
      refine ⟨List.nil_prefix, fun p hp => ?_⟩
      cases p with
      | nil => simp
      | cons x p =>
        obtain ⟨rfl, -⟩ := List.cons_prefix_cons.1 hp
        have htotal : (total (x :: p) : Int) = x.size + total p := by simp [total]
        simp only [List.prefix_nil, reduceCtorEq, false_or, false_iff]
        omega

theorem total_fitting_le {limit : Int} {q : List Req} (h : fitting limit q ≠ []) :
    total (fitting limit q) ≤ limit :=
  (((longestPrefix_fitting limit q).fits _ (longestPrefix_fitting limit q).front).1
    List.prefix_rfl).resolve_left h

/-! ## The loop over the queue -/

/-- `free` is what is left up to `max_req`. -/
def fillLoop : Nat → Queues → Int → Option (Queues × List Req)
  | 0, _, _ => none
  | fuel + 1, s, free => do
    match ← s.first false with
    | none => some (s, [])
    | some r =>
      if free < r.size then some (s, [])
      else do
        let (s', _) ← s.pop false
        let (t, rs) ← fillLoop fuel s' (free - r.size)
        some (t, r :: rs)

/-- The loop ends: it takes a request off the queue in every pass. -/
theorem fillLoop_eq {fuel : Nat} {s : Queues} {f : Fifo} (free : Int) (h : s.Holds false f)
    (hf : f.reqs.length < fuel) :
    ∃ s' f', fillLoop fuel s free = some (s', fitting free f.reqs) ∧
      s'.Holds false f' ∧ f.reqs = fitting free f.reqs ++ f'.reqs ∧
      s'.queue true = s.queue true ∧ s'.requests = s.requests := by
  induction fuel generalizing s f free with
  | zero => omega
  | succ fuel ih =>
    unfold fillLoop
    rw [h.first]
    cases hr : f.reqs with
    | nil => exact ⟨s, f, rfl, h, by rw [hr]; rfl, rfl, rfl⟩
    | cons r rs =>
      unfold fitting
      by_cases hfree : free < r.size
      · rw [if_neg (by omega)]
        refine ⟨s, f, ?_, h, by rw [hr]; rfl, rfl, rfl⟩
        simp [hfree]
      · obtain ⟨s', hpop, hs', hro, hreq⟩ := h.pop
        have hrest : f.pop.1.reqs = rs := by rw [Fifo.pop_reqs, hr, List.tail_cons]
        obtain ⟨t, f', hloop, ht, hsplit, hro', hreq'⟩ :=
          ih (free - r.size) hs' (by rw [hrest]; rw [hr] at hf; simpa using hf)
        rw [hrest] at hloop hsplit
        refine ⟨t, f', ?_, ht, ?_, hro'.trans hro, hreq'.trans hreq⟩
        · rw [if_pos (by omega)]
          simp [hfree, hpop, hloop]
        · rw [if_pos (by omega), List.cons_append, ← hsplit]

/-! ## The message -/

section

variable (hash : List UInt8 → Digest) (hmac : List UInt8 → List UInt8 → Digest) (N : TinyBFT.Node)
    (contents : Req → List UInt8)
  (nonDetChoices : Int → List UInt8) (msize maxNd : Nat) (v n : Int)

def maxReq : Int := msize - 64 - maxNd - N.authSize (-1)

def body (rs : List Req) : List UInt8 := rs.flatMap contents

/-- A batch without requests has no choices. -/
def nonDet (rs : List Req) : List UInt8 :=
  if 0 < (body contents rs).length then nonDetChoices n else []

/-- `size()` after `set_size`. -/
def messageSize (rs : List Req) : Nat :=
  alignedSize (64 + (body contents rs).length + (nonDet contents nonDetChoices n rs).length +
    N.authSize (-1))

def header (rs : List Req) : List UInt8 :=
  [3, 0, 0, 0] ++ (Bytes.ofNat 4 (messageSize N contents nonDetChoices n rs) ++
    (Bytes.ofInt 8 v ++ (Bytes.ofInt 8 n ++
    ((hash ((rs.flatMap fun r => r.digest.bytes) ++ nonDet contents nonDetChoices n rs)).bytes ++
      (Bytes.ofNat 4 (body contents rs).length ++
        (Bytes.ofNat 2 (nonDet contents nonDetChoices n rs).length ++ [0, 0]))))))

/-- The authenticator is of the header. -/
def message (rs : List Req) : List UInt8 :=
  header hash N contents nonDetChoices v n rs ++
    (body contents rs ++ (nonDet contents nonDetChoices n rs ++
    N.genAuthOut hmac (header hash N contents nonDetChoices v n rs)))

/-- `non_det_size` is a `short`: the size of longer choices is negative in the message, and the hash
would run over all of the memory. -/
def fill (s : Queues) : Option (Queues × List Req × List UInt8) := do
  let (s', rs) ← fillLoop ((s.queue false).nelems.toNat + 1) s (maxReq N msize maxNd)
  if (nonDet contents nonDetChoices n rs).length % 8 = 0 ∧
    (nonDet contents nonDetChoices n rs).length < 2 ^ 15 then
    some (s', rs, message hash hmac N contents nonDetChoices v n rs)
  else none

end

/-! ## What the backup finds -/

/-- Where the requests are in the set. -/
def offsets : Int → List Req → List Int
  | _, [] => []
  | a, r :: rs => a :: offsets (a + r.size) rs

section

variable (hash : List UInt8 → Digest) (N N' : TinyBFT.Node)
    (hasReq : List UInt8 → List UInt8 → Bool) (contents : Req → List UInt8)

/-- A request that `handle` puts into the queue: its bytes are those of a message that `verify` has
accepted, whatever was behind it. -/
structure Admitted (r : Req) : Prop where
  length : (contents r).length = r.size
  accepted : ∃ behind, Received (Memory.ofBytes (contents r) behind) N.P 1 56 ∧
    Wire.size (Memory.ofBytes (contents r) behind) = r.size ∧
    Request.od (Memory.ofBytes (contents r) behind) = r.digest.bytes ∧
    (Request.verify hash N).run (Memory.ofBytes (contents r) behind) = true

/-- The bytes of the request include its command. -/
def Whole (r : Req) : Prop := Request.CommandInside (Memory.ofBytes (contents r) fun _ => 0)

/-- The backup takes the request that it finds at `a`: it is whole, or it verifies in front of what
is behind it, or the backup has it. -/
def Stands (m : PrePrepareRep) (a : Int) (r : Req) : Prop :=
  Whole contents r ∨ requestOk hash N' hasReq m a (.verify .all) = true

end

variable {hash : List UInt8 → Digest} {hmac : List UInt8 → List UInt8 → Digest}
    {N N' : TinyBFT.Node}
  {hasReq : List UInt8 → List UInt8 → Bool} {contents : Req → List UInt8} {m : PrePrepareRep}
  {r : Req} {rs : List Req} {a b : Int}
  {mem : Memory}

theorem requestAt_tag : (requestAt m a).tag = Wire.tag (requestMem m a) :=
  congrArg Bytes.toInt (by rw [requestMem, Memory.slice_shift, Int.add_zero]; rfl)

theorem requestAt_size : (requestAt m a).size = Wire.size (requestMem m a) :=
  congrArg Bytes.toInt (by rw [requestMem, Memory.slice_shift]; rfl)

theorem requestAt_od : (requestAt m a).od = Request.od (requestMem m a) := by
  unfold Request.od
  rw [requestMem, Memory.slice_shift]
  rfl

/-- The bytes of a request have its fields, wherever they are. -/
theorem Admitted.fields (h : Admitted hash N contents r) (hm : mem.Holds 0 (contents r)) :
    56 ≤ r.size ∧ r.size % 8 = 0 ∧ Wire.tag mem = 1 ∧ Wire.size mem = r.size ∧
      Request.od mem = r.digest.bytes := by
  obtain ⟨behind, hrec, hsize, hod, -⟩ := h.accepted
  obtain ⟨htag, h56, h8, -⟩ := hrec.spec
  have hlen := h.length
  have heq : ∀ a : Int, ∀ len : Nat, 0 ≤ a → a + len ≤ 56 →
    mem.slice a len = (Memory.ofBytes (contents r) behind).slice a len :=
    fun a len h0 hle => hm.slice_eq (Memory.holds_ofBytes _ _) h0 (by omega)
  refine ⟨by omega, by omega, ?_, ?_, ?_⟩
  · rw [← htag]
    exact congrArg Bytes.toInt (heq 0 2 (by omega) (by omega))
  · rw [← hsize]
    exact congrArg Bytes.toInt (heq 4 4 (by omega) (by omega))
  · rw [← hod]
    exact heq 8 32 (by omega) (by omega)

/-- A request that is whole verifies wherever its bytes are. -/
theorem Admitted.verify (h : Admitted hash N contents r) (hw : Whole contents r)
    (hm : mem.Holds 0 (contents r)) :
    (Request.verify hash N).run mem = true := by
  obtain ⟨h56, -, -, hsize, -⟩ := h.fields hm
  obtain ⟨-, -, -, hsize', -⟩ := h.fields (Memory.holds_ofBytes (contents r) fun _ => 0)
  obtain ⟨behind, -, -, -, hv⟩ := h.accepted
  have hlen := h.length
  have hcs : Request.commandSize mem =
    Request.commandSize (Memory.ofBytes (contents r) fun _ => 0) :=
    congrArg Bytes.toInt (hm.slice_eq (Memory.holds_ofBytes _ _) (by omega) (by omega))
  have hin : Request.CommandInside mem := by
    unfold Whole Request.CommandInside at hw
    unfold Request.CommandInside
    rw [hcs, hsize]
    rwa [hsize'] at hw
  rw [Request.verify_eq_of_inside (by omega) hin
    fun x h0 hx => hm.agree (Memory.holds_ofBytes (contents r) behind) h0 (by omega)]
  exact hv

theorem holds_requestMem {bs : List UInt8} :
    Memory.Holds (requestMem m a) 0 bs ↔ Memory.Holds m.mem a bs := by
  unfold requestMem
  rw [Memory.holds_shift, Int.add_zero]

theorem length_offsets : (offsets a rs).length = rs.length := by
  induction rs generalizing a with
  | nil => rfl
  | cons r rs ih => rw [offsets, List.length_cons, List.length_cons, ih]

/-- Each request is where its offset says. -/
theorem holds_of_mem_zip (hlen : ∀ r ∈ rs, (contents r).length = r.size)
    (hm : Memory.Holds m.mem a (body contents rs)) {p : Int × Req}
    (hp : p ∈ (offsets a rs).zip rs) : Memory.Holds m.mem p.1 (contents p.2) := by
  induction rs generalizing a with
  | nil => cases hp
  | cons r rs ih =>
    unfold body at hm
    rw [List.flatMap_cons, Memory.holds_append, hlen r List.mem_cons_self] at hm
    rw [offsets, List.zip_cons_cons] at hp
    rcases List.mem_cons.1 hp with rfl | hp
    · exact hm.1
    · exact ih (fun r hr => hlen r (List.mem_cons_of_mem _ hr)) hm.2 hp

/-- A function of the requests in the set is one of the requests in the queue. -/
theorem map_offsets {α : Type} {f : Int → α} {g : Req → α}
    (hfg : ∀ p ∈ (offsets a rs).zip rs, f p.1 = g p.2) :
    (offsets a rs).map f = rs.map g :=
  calc (offsets a rs).map f = (((offsets a rs).zip rs).map Prod.fst).map f := by
        rw [List.map_fst_zip length_offsets.le]
    _ = (((offsets a rs).zip rs).map Prod.snd).map g := by
      rw [List.map_map, List.map_map]
      exact List.map_congr_left hfg
    _ = rs.map g := by rw [List.map_snd_zip length_offsets.ge]

/-- The loop of the backup finds the requests one behind the other. -/
theorem loop_offsets {ok : Int → Bool} (hadm : ∀ r ∈ rs, Admitted hash N contents r)
    (hm : Memory.Holds m.mem a (body contents rs))
    (hend : m.rsetSize = a + (body contents rs).length) (halign : a % 8 = 0)
    (hok : ∀ b ∈ offsets a rs, ok b = true) :
    Loop (tested ok m) m a (offsets a rs) := by
  induction rs generalizing a with
  | nil =>
    have h0 : (body contents []).length = 0 := rfl
    exact .done (by omega)
  | cons r rs ih =>
    have hr := hadm r List.mem_cons_self
    have hlen := hr.length
    have hcons : body contents (r :: rs) = contents r ++ body contents rs := List.flatMap_cons
    rw [hcons, Memory.holds_append, hlen] at hm
    rw [hcons, List.length_append, hlen] at hend
    obtain ⟨h56, h8, htag, hsize, -⟩ := hr.fields (holds_requestMem.2 hm.1)
    rw [← requestAt_tag] at htag
    rw [← requestAt_size] at hsize
    have hconv : convert m a (requestAt m a) = true := by
      simp only [convert, Bool.and_eq_true, decide_eq_true_eq, beq_iff_eq]
      omega
    refine .next (by omega) ?_ ?_
    · unfold tested
      rw [hconv, hok a List.mem_cons_self]
      rfl
    · rw [hsize]
      exact ih (fun r hr => hadm r (List.mem_cons_of_mem _ hr)) hm.2 (by omega) (by omega)
        fun b hb => hok b (List.mem_cons_of_mem _ hb)

/-! ## The message that is built -/

section

variable (hash : List UInt8 → Digest) (hmac : List UInt8 → List UInt8 → Digest)
    (N N' : TinyBFT.Node)
  (hasReq : List UInt8 → List UInt8 → Bool) (contents : Req → List UInt8)
  (nonDetChoices : Int → List UInt8) (msize maxNd : Nat) (v n : Int)

/-- What `fill` asks of the choices: the assertion, and that their size is one in the message. -/
def ChoicesFit (rs : List Req) : Prop :=
  (nonDet contents nonDetChoices n rs).length % 8 = 0 ∧
    (nonDet contents nonDetChoices n rs).length < 2 ^ 15

instance (rs : List Req) : Decidable (ChoicesFit contents nonDetChoices n rs) :=
  inferInstanceAs (Decidable (_ ∧ _))

/-- A backup of view `v`, with the session key of the primary. -/
structure Backup : Prop where
  params : N'.P = N.P
  replicas : N'.numReplicas = N.numReplicas
  principals : N'.numPrincipals = N.numPrincipals
  replicas_le : N.numReplicas ≤ N.numPrincipals
  keys : ∀ i, (N'.principals i).pkey = (N.principals i).pkey
  id_lt : N.id < N.numReplicas ∧ N'.id < N.numReplicas
  other : N.id ≠ N'.id
  primary : N'.primary v = N.id
  session : (N'.principals N.id).kin = some (N.principals N'.id).kout

/-- The fields of the header, where `received` finds them. -/
structure HeaderFields (mem : Memory) (rs : List Req) : Prop where
  tag : Wire.tag mem = 3
  size : Wire.size mem = messageSize N contents nonDetChoices n rs
  view : (received mem).view = v
  seqno : (received mem).seqno = n
  digest : (received mem).digest =
    hash ((rs.flatMap fun r => r.digest.bytes) ++ nonDet contents nonDetChoices n rs)
  rsetSize : (received mem).rsetSize = (body contents rs).length
  nonDetSize : (received mem).nonDetSize = (nonDet contents nonDetChoices n rs).length

/-- The backup gets a message: it accepts it and finds the requests `rs`. -/
structure Delivered (mem : Memory) (rs : List Req) : Prop where
  converts : Received mem N'.P 3 64
  view : (received mem).view = v
  seqno : (received mem).seqno = n
  accepted : accepts hash hmac N' hasReq (.verify .all) mem = true
  requests : (iter (received mem) (received mem).rsetSize.toNat 0).map
    (fun a => Memory.slice (received mem).mem a (requestAt (received mem) a).size.toNat) =
      rs.map contents

/-- **What `fill` is for**: the longest prefix that fits goes from the queue into a message, and the
backup gets it, in front of whatever its buffer has there. -/
def Batched (behind : Memory) (s : Queues) (f : Fifo) : Prop :=
  ∃ s' f' rs msg, fill hash hmac N contents nonDetChoices msize maxNd v n s = some (s', rs, msg) ∧
    LongestPrefix (maxReq N msize maxNd) f.reqs rs ∧ f.reqs = rs ++ f'.reqs ∧
      s'.Holds false f' ∧ s'.queue true = s.queue true ∧
    msg.length ≤ msize ∧ Delivered hash hmac N' hasReq contents v n (Memory.ofBytes msg behind) rs

end

variable {nonDetChoices : Int → List UInt8} {msize maxNd : Nat} {v n : Int} {s : Queues} {f : Fifo}

/-- One call of `fill`. -/
theorem fill_eq (hash : List UInt8 → Digest) (hmac : List UInt8 → List UInt8 → Digest)
    (N : TinyBFT.Node) (contents : Req → List UInt8) (nonDetChoices : Int → List UInt8)
    (msize maxNd : Nat) (v n : Int) (h : s.Holds false f) :
    ∃ s' f', fill hash hmac N contents nonDetChoices msize maxNd v n s =
        (if ChoicesFit contents nonDetChoices n (fitting (maxReq N msize maxNd) f.reqs) then
          some (s', fitting (maxReq N msize maxNd) f.reqs,
            message hash hmac N contents nonDetChoices v n (fitting (maxReq N msize maxNd) f.reqs))
              else none) ∧
      f.reqs = fitting (maxReq N msize maxNd) f.reqs ++ f'.reqs ∧
        s'.Holds false f' ∧ s'.queue true = s.queue true := by
  have hfuel : f.reqs.length < (s.queue false).nelems.toNat + 1 := by
    rw [h.nelems, Fifo.size, Int.toNat_natCast]
    omega
  obtain ⟨s', f', hloop, hs', hsplit, hro, -⟩ := fillLoop_eq (maxReq N msize maxNd) h hfuel
  refine ⟨s', f', ?_, hsplit, hs', hro⟩
  unfold fill
  rw [hloop]
  rfl

theorem length_header {rs : List Req} :
    (header hash N contents nonDetChoices v n rs).length = 64 := by
  simp [header, Digest.length_bytes]

theorem length_genAuthOut (hid : N.id < N.numReplicas) (msg : List UInt8) :
    (N.genAuthOut hmac msg).length = N.authSize (-1) := by
  have hmacs : ∀ i, ((N.principals i).genMacOut hmac msg).length = 32 :=
    fun i => Digest.length_bytes _
  refine (length_flatMap_const (N.others N.id) hmacs).trans ?_
  unfold TinyBFT.Node.others TinyBFT.Node.authSize
  rw [length_filter_ne]
  dsimp only
  rw [if_pos hid, if_pos (show (-1 : Int) < 0 by omega), if_pos (by omega)]
  omega

theorem length_body (hlen : ∀ r ∈ rs, (contents r).length = r.size) :
    (body contents rs).length = total rs := by
  unfold body total
  rw [List.length_flatMap, List.map_congr_left hlen]

theorem total_mod (h : ∀ r ∈ rs, r.size % 8 = 0) : total rs % 8 = 0 := by
  induction rs with
  | nil => rfl
  | cons r rs ih =>
    have h1 := h r List.mem_cons_self
    have h2 := ih fun r hr => h r (List.mem_cons_of_mem _ hr)
    have htotal : total (r :: rs) = r.size + total rs := by simp [total]
    omega

theorem header_fields (h : mem.Holds 0 (header hash N contents nonDetChoices v n rs))
    (hv : -2 ^ 63 ≤ v ∧ v < 2 ^ 63) (hn : -2 ^ 63 ≤ n ∧ n < 2 ^ 63)
    (hsize : messageSize N contents nonDetChoices n rs < 2 ^ 31)
    (hbody : (body contents rs).length < 2 ^ 31)
    (hnd : (nonDet contents nonDetChoices n rs).length < 2 ^ 15) :
    HeaderFields hash N contents nonDetChoices v n mem rs := by
  unfold header at h
  simp only [Memory.holds_append, Bytes.length_ofNat, Bytes.length_ofInt,
    Digest.length_bytes, List.length_cons, List.length_nil] at h
  obtain ⟨htag, hsz, hvw, hsq, hdg, hrs, hnds, -⟩ := h
  have h0 : mem.slice 0 2 = [3, 0] := by
    have h4 : mem.slice 0 (2 + 2) = [3, 0] ++ [0, 0] := htag
    rw [Memory.slice_append] at h4
    exact (List.append_inj h4 (by simp)).1
  have h1 : mem.slice 4 4 = Bytes.ofNat 4 (messageSize N contents nonDetChoices n rs) := by
    simpa [Memory.Holds] using hsz
  have h2 : mem.slice 8 8 = Bytes.ofInt 8 v := by simpa [Memory.Holds] using hvw
  have h3 : mem.slice 16 8 = Bytes.ofInt 8 n := by simpa [Memory.Holds] using hsq
  have h4 : mem.slice 24 32 =
    (hash ((rs.flatMap fun r => r.digest.bytes) ++ nonDet contents nonDetChoices n rs)).bytes := by
    simpa [Memory.Holds, Digest.length_bytes] using hdg
  have h5 : mem.slice 56 4 = Bytes.ofNat 4 (body contents rs).length := by
    simpa [Memory.Holds] using hrs
  have h6 : mem.slice 60 2 = Bytes.ofNat 2 (nonDet contents nonDetChoices n rs).length := by
    simpa [Memory.Holds] using hnds
  refine ⟨?_, ?_, ?_, ?_, ?_, ?_, ?_⟩
  · show Bytes.toInt (mem.slice 0 2) = 3
    rw [h0]
    decide
  · show Bytes.toInt (mem.slice 4 4) = _
    rw [h1]
    exact Bytes.toInt_ofNat (by omega)
  · show Bytes.toInt (mem.slice 8 8) = _
    rw [h2]
    exact Bytes.toInt_ofInt (by omega) (by omega)
  · show Bytes.toInt (mem.slice 16 8) = _
    rw [h3]
    exact Bytes.toInt_ofInt (by omega) (by omega)
  · show Digest.ofBytes (mem.slice 24 32) = _
    rw [h4]
    exact Digest.ofBytes_bytes _
  · show Bytes.toInt (mem.slice 56 4) = _
    rw [h5]
    exact Bytes.toInt_ofNat (by omega)
  · show Bytes.toInt (mem.slice 60 2) = _
    rw [h6]
    exact Bytes.toInt_ofNat (by omega)

/-- The sizes of a message for requests that fit. -/
structure Sizes (N : TinyBFT.Node) (contents : Req → List UInt8) (nonDetChoices : Int → List UInt8)
    (msize : Nat) (n : Int) (rs : List Req) : Prop where
  size : messageSize N contents nonDetChoices n rs =
    64 + (body contents rs).length + (nonDet contents nonDetChoices n rs).length + N.authSize (-1)
  fits : messageSize N contents nonDetChoices n rs ≤ msize
  body : (body contents rs).length % 8 = 0

theorem sizes_of_fitting {q : List Req} (hadm : ∀ r ∈ q, Admitted hash N contents r)
    (hid : N.id < N.numReplicas) (hnd : (nonDetChoices n).length ≤ maxNd)
    (hmsize : N.P.maxMessageSize ≤ msize)
    (hfit : ChoicesFit contents nonDetChoices n (fitting (maxReq N msize maxNd) q)) :
    Sizes N contents nonDetChoices msize n (fitting (maxReq N msize maxNd) q) := by
  have hmem : ∀ r ∈ fitting (maxReq N msize maxNd) q, Admitted hash N contents r := fun r hr =>
    hadm r ((longestPrefix_fitting _ q).front.subset hr)
  have htotal := @total_fitting_le (maxReq N msize maxNd) q
  generalize fitting (maxReq N msize maxNd) q = rs at hfit hmem htotal ⊢
  have hlen : (Batching.body contents rs).length = total rs :=
    length_body fun r hr => (hmem r hr).length
  have h8 : total rs % 8 = 0 :=
    total_mod fun r hr => ((hmem r hr).fields (Memory.holds_ofBytes _ fun _ => 0)).2.1
  have hauth : N.authSize (-1) % 8 = 0 := by
    have h : ∀ k : Nat, k * 32 % 8 = 0 := fun k => by omega
    exact h _
  have hauth' : 64 + N.authSize (-1) ≤ N.P.maxMessageSize := by
    have h1 := N.replicas_le
    have h2 := N.P.viewChange_fits
    unfold TinyBFT.Node.authSize
    dsimp only
    rw [if_pos (show (-1 : Int) < 0 by omega), if_pos (by omega)]
    omega
  have hnd' : (nonDet contents nonDetChoices n rs).length ≤ maxNd := by
    unfold nonDet
    split
    · exact hnd
    · simp
  have hsize : messageSize N contents nonDetChoices n rs =
      64 + (Batching.body contents rs).length + (nonDet contents nonDetChoices n rs).length +
        N.authSize (-1) := by
    have := hfit.1
    unfold messageSize alignedSize
    omega
  refine ⟨hsize, ?_, by omega⟩
  by_cases hrs : rs = []
  · have h0 : nonDet contents nonDetChoices n rs = [] := by
      subst hrs
      rfl
    have h1 : (Batching.body contents rs).length = 0 := by
      subst hrs
      rfl
    rw [hsize, h0, h1, List.length_nil]
    omega
  · have := htotal hrs
    unfold maxReq at this
    omega

/-- The parts of a message. -/
theorem message_parts (h : mem.Holds 0 (message hash hmac N contents nonDetChoices v n rs)) :
    mem.Holds 0 (header hash N contents nonDetChoices v n rs) ∧ mem.Holds 64 (body contents rs) ∧
      mem.Holds (64 + (body contents rs).length) (nonDet contents nonDetChoices n rs) ∧
      mem.Holds (64 + (body contents rs).length + (nonDet contents nonDetChoices n rs).length)
        (N.genAuthOut hmac (mem.slice 0 64)) := by
  unfold message at h
  rw [Memory.holds_append, Memory.holds_append, Memory.holds_append, length_header] at h
  obtain ⟨hh, hb, hnd, ha⟩ := h
  have hslice : mem.slice 0 64 = header hash N contents nonDetChoices v n rs := by
    have h64 : mem.slice 0 (header hash N contents nonDetChoices v n rs).length =
      header hash N contents nonDetChoices v n rs := hh
    rwa [length_header] at h64
  rw [hslice]
  exact ⟨hh, hb, hnd, ha⟩

/-- The loop of the check over a set that holds admitted requests: it passes when the backup takes
them all. -/
theorem requestOk_iff (hb : Backup N N' v) (hadm : ∀ r ∈ rs, Admitted hash N contents r)
    (hm : Memory.Holds m.mem 0 (body contents rs)) :
    (∀ b ∈ offsets 0 rs, requestOk hash N' hasReq m b (.verify .all) = true) ↔
      ∀ p ∈ (offsets 0 rs).zip rs, Stands hash N' hasReq contents m p.1 p.2 := by
  constructor
  · exact fun h p hp => .inr (h p.1 (List.of_mem_zip hp).1)
  · intro h b hb'
    rw [← @List.map_fst_zip _ _ (offsets 0 rs) rs length_offsets.le] at hb'
    obtain ⟨p, hp, rfl⟩ := List.mem_map.1 hb'
    rcases h p hp with hw | hok
    · have hr := hadm p.2 (List.of_mem_zip hp).2
      have hv :=
        hr.verify hw (holds_requestMem.2 (holds_of_mem_zip (fun r hr => (hadm r hr).length) hm hp))
      rw [← Request.verify_eq_of_keys hb.principals hb.keys] at hv
      simp [requestOk, hv]
    · exact hok

/-- A message for requests that fit is delivered if and only if the backup takes all the
requests. -/
theorem delivered_iff (hasReq : List UInt8 → List UInt8 → Bool) (hb : Backup N N' v)
    (hv : -2 ^ 63 ≤ v ∧ v < 2 ^ 63) (hn : -2 ^ 63 ≤ n ∧ n < 2 ^ 63)
    (hadm : ∀ r ∈ rs, Admitted hash N contents r)
    (hfit : ChoicesFit contents nonDetChoices n rs) (hs : Sizes N contents nonDetChoices msize n rs)
    (hmsize : msize ≤ alignedSize N.P.maxMessageSize)
    (hm : mem.Holds 0 (message hash hmac N contents nonDetChoices v n rs)) :
    Delivered hash hmac N' hasReq contents v n mem rs ↔
      ∀ p ∈ (offsets 0 rs).zip rs, Stands hash N' hasReq contents (received mem) p.1 p.2 := by
  obtain ⟨hh, hbody, hnd, hauth⟩ := message_parts hm
  have hP := N.P.maxMessageSize_le
  have hal := alignedSize_lt N.P.maxMessageSize
  have hsum := hs.size
  have hle := hs.fits
  have h8 := hs.body
  have hf := header_fields hh hv hn (by omega) (by omega) hfit.2
  have hset : Memory.Holds (received mem).mem 0 (body contents rs) :=
    Memory.holds_shift.2 (by rw [Int.add_zero]; exact hbody)
  have hplace : ∀ p ∈ (offsets 0 rs).zip rs,
    Memory.Holds (requestMem (received mem) p.1) 0 (contents p.2) := fun p hp =>
    holds_requestMem.2 (holds_of_mem_zip (fun r hr => (hadm r hr).length) hset hp)
  have hfields :=
    fun p (hp : p ∈ (offsets 0 rs).zip rs) => (hadm p.2 (List.of_mem_zip hp).2).fields (hplace p hp)
  have hend : (received mem).rsetSize = 0 + (body contents rs).length := by
    rw [hf.rsetSize, Int.zero_add]
  -- what the loop finds, whatever is asked of the requests
  have hloop : ∀ ok : Int → Bool, (∀ b ∈ offsets 0 rs, ok b = true) →
    Loop (tested ok (received mem)) (received mem) 0 (offsets 0 rs) :=
    fun ok hok => loop_offsets hadm hset hend (by omega) hok
  have hfuel : ((received mem).rsetSize - 0).toNat ≤ (received mem).rsetSize.toNat := by
    rw [Int.sub_zero]
  have hiter : iter (received mem) (received mem).rsetSize.toNat 0 = offsets 0 rs :=
    (hloop (fun _ => true) fun _ _ => rfl).iter_eq hfuel
  have hods : (offsets 0 rs).map (fun b => (requestAt (received mem) b).od) = rs.map
    fun r => r.digest.bytes :=
    map_offsets fun p hp => requestAt_od.trans (hfields p hp).2.2.2.2
  have hslices : (offsets 0 rs).map (fun a => Memory.slice
    (received mem).mem a (requestAt (received mem) a).size.toNat) = rs.map contents :=
    map_offsets fun p hp => by
      have hlen := (hadm p.2 (List.of_mem_zip hp).2).length
      rw [requestAt_size, (hfields p hp).2.2.2.1, Int.toNat_natCast, ← hlen]
      exact holds_requestMem.1 (hplace p hp)
  rw [← requestOk_iff hb hadm hset]
  constructor
  · intro hd b hbo
    obtain ⟨-, -, as, has, -⟩ := accepts_spec hd.accepted
    rw [← has.unique (hloop (fun _ => true) fun _ _ => rfl)] at hbo
    exact (Bool.and_eq_true _ _ ▸ (has.mem hbo).1).2
  · intro hok
    have hscan :=
      (hloop (requestOk hash N' hasReq (received mem) · (.verify .all)) hok).scan_eq hfuel
    have hauth' : N'.authSize (N'.primary v) = N.authSize (-1) := by
      rw [hb.primary]
      unfold TinyBFT.Node.authSize
      dsimp only
      rw [if_neg (show ¬ (N.id : Int) < 0 by omega),
        if_pos (show (-1 : Int) < 0 by omega), hb.replicas]
    have hchoices : choices (received mem) = nonDet contents nonDetChoices n rs := by
      show Memory.slice (received mem).mem (received mem).rsetSize
        (received mem).nonDetSize.toNat = _
      rw [hf.rsetSize, hf.nonDetSize, Int.toNat_natCast]
      exact Memory.holds_shift.2 hnd
    have hinput : ((offsets 0 rs).map (requestAt (received mem))).flatMap RequestRep.od = rs.flatMap
      fun r => r.digest.bytes := by
      rw [List.flatMap_def, List.map_map, List.flatMap_def, ← hods]
      rfl
    have h8' : messageSize N contents nonDetChoices n rs % 8 = 0 := alignedSize_mod _
    refine ⟨?_, hf.view, hf.seqno, ?_, by rw [hiter]; exact hslices⟩
    · unfold Received hasTag
      rw [hf.tag, hf.size, hb.params]
      simp only [Bool.and_eq_true, Bool.not_eq_true', Bool.and_eq_false_iff,
        decide_eq_true_eq, decide_eq_false_iff_not, beq_iff_eq]
      exact ⟨⟨⟨.inr (by omega), trivial⟩, by omega⟩, by omega⟩
    · unfold accepts
      dsimp only
      rw [hscan, hf.view, hauth', hf.rsetSize, hf.nonDetSize]
      dsimp only
      rw [toInt_eq_self (by omega) (by omega), hchoices, digestInput, hinput, hf.digest]
      simp only [Bool.and_eq_true, decide_eq_true_eq, beq_iff_eq]
      refine ⟨?_, ⟨⟨by omega, by omega⟩, trivial⟩, ?_⟩
      · show _ ≤ Wire.size mem
        rw [hf.size]
        omega
      · show (N'.verifyAuthIn hmac (N'.primary (received mem).view) 0 64
          (64 + toInt ((received mem).rsetSize + (received mem).nonDetSize))).run mem = true
        rw [hf.view, hb.primary, hf.rsetSize, hf.nonDetSize,
          toInt_eq_self (by omega) (by omega), ← Int.add_assoc]
        have hprincipal : N'.iToP (N.id : Int) = some (N'.principals N.id) := by
          have h1 := hb.replicas_le
          have h2 := hb.id_lt.1
          unfold TinyBFT.Node.iToP
          rw [hb.principals, if_pos (by omega), Int.toNat_natCast]
        exact verifyAuthIn_genAuthOut rfl rfl hb.id_lt.2 hb.other hprincipal hb.session hauth

/-- **Batching** works, for whatever queue of admitted requests, exactly when the choices that go
with the requests have a size that fits its field, and the backup takes every request, as it does
each that is whole. -/
theorem fill_batched_iff {behind : Memory} (h : s.Holds false f)
    (hadm : ∀ r ∈ f.reqs, Admitted hash N contents r) (hb : Backup N N' v)
    (hmsize : N.P.maxMessageSize ≤ msize ∧ msize ≤ alignedSize N.P.maxMessageSize)
    (hnd : (nonDetChoices n).length ≤ maxNd) (hv : -2 ^ 63 ≤ v ∧ v < 2 ^ 63)
    (hn : -2 ^ 63 ≤ n ∧ n < 2 ^ 63) :
    Batched hash hmac N N' hasReq contents nonDetChoices msize maxNd v n behind s f ↔
      ChoicesFit contents nonDetChoices n (fitting (maxReq N msize maxNd) f.reqs) ∧
        ∀ p ∈ (offsets 0 (fitting (maxReq N msize maxNd) f.reqs)).zip (fitting
            (maxReq N msize maxNd) f.reqs),
          Stands hash N' hasReq contents
            (received (Memory.ofBytes (message hash hmac N contents nonDetChoices v n
            (fitting (maxReq N msize maxNd) f.reqs)) behind)) p.1 p.2 := by
  obtain ⟨s', f', hfill, hsplit, hs', hro⟩ :=
    fill_eq hash hmac N contents nonDetChoices msize maxNd v n h
  have hlongest := longestPrefix_fitting (maxReq N msize maxNd) f.reqs
  have hmem : ∀ r ∈ fitting (maxReq N msize maxNd) f.reqs, Admitted hash N contents r :=
    fun r hr => hadm r (hlongest.front.subset hr)
  have hsizes := fun hfit => sizes_of_fitting hadm hb.id_lt.1 hnd hmsize.1 hfit
  generalize fitting (maxReq N msize maxNd) f.reqs = rs at hfill hsplit hlongest hmem hsizes ⊢
  have hdel := fun hfit => delivered_iff hasReq hb hv hn hmem hfit (hsizes hfit) hmsize.2
    (Memory.holds_ofBytes (message hash hmac N contents nonDetChoices v n rs) behind)
  unfold Batched
  by_cases hfit : ChoicesFit contents nonDetChoices n rs
  · rw [if_pos hfit] at hfill
    constructor
    · rintro ⟨t, g, rs', msg, ht, -, -, -, -, -, hd⟩
      rw [hfill] at ht
      obtain ⟨rfl, hpair⟩ := Prod.mk.inj (Option.some.inj ht)
      obtain ⟨rfl, rfl⟩ := Prod.mk.inj hpair
      exact ⟨hfit, (hdel hfit).1 hd⟩
    · rintro ⟨-, hstands⟩
      refine ⟨s', f', rs, _, hfill, hlongest, hsplit, hs', hro, ?_, (hdel hfit).2 hstands⟩
      have h1 := (hsizes hfit).size
      have h2 := (hsizes hfit).fits
      unfold message
      rw [List.length_append, List.length_append, List.length_append,
        length_header, length_genAuthOut hb.id_lt.1]
      omega
  · rw [if_neg hfit] at hfill
    constructor
    · rintro ⟨t, g, rs', msg, ht, -⟩
      rw [hfill] at ht
      cases ht
    · exact fun hc => absurd hc.1 hfit

/-- The header of a request of client 4: its size and that of the command. -/
def requestHeader (size commandSize : Nat) : List UInt8 :=
  [1, 0, 0, 0] ++
    (Bytes.ofNat 4 size ++ (List.replicate 32 0 ++ ([255, 255] ++ (Bytes.ofNat 2 commandSize ++
    [4, 0, 0, 0, 1, 0, 0, 0, 0, 0, 0, 0]))))

/-- A command of zeros, and a signature of 256. -/
def requestBytes (commandSize : Nat) : List UInt8 :=
  requestHeader (56 + commandSize + 264) commandSize ++
    (List.replicate commandSize 0 ++ ([0, 1, 0, 0] ++ List.replicate 260 0))

/-- The primary of the view of `fourReplicas`. -/
def replicaZero : TinyBFT.Node := { fourReplicas with id := 0 }

theorem backup_replicaZero : Backup replicaZero fourReplicas 0 :=
  ⟨rfl, rfl, rfl, by decide, fun _ => rfl, by decide, by decide, by decide, rfl⟩

/-- A queue of one request. -/
def queued (size : Nat) : Fifo := ⟨[⟨4, 1, false, 0, [], size⟩], List.nodup_singleton _⟩

theorem holds_queued (size : Nat) : ∃ s : Queues, s.Holds false (queued size) := by
  obtain ⟨s, -, hs, -, -⟩ := (Queues.holds_init (fun c => ⟨c, 0, false, 0, [], 0⟩) false).store
    (r := ⟨4, 1, false, 0, [], size⟩) rfl (le_refl size)
  exact ⟨s, hs⟩

theorem length_requestBytes (commandSize : Nat) :
    (requestBytes commandSize).length = 56 + commandSize + 264 := by
  simp only [requestBytes, requestHeader, List.length_append,
    List.length_replicate, Bytes.length_ofNat, List.length_cons, List.length_nil]
  omega

theorem requestBytes_batched : ∃ s : Queues, s.Holds false (queued 328) ∧
    Batched (fun _ => 0) (fun _ _ => 0) replicaZero fourReplicas
      (fun _ _ => false) (fun _ => requestBytes 8) (fun _ => []) 16384 8 0 1
      (fun _ => 0) s (queued 328) := by
  obtain ⟨s, hs⟩ := holds_queued 328
  have hadm : ∀ r ∈ (queued 328).reqs,
    Admitted (fun _ => 0) replicaZero (fun _ => requestBytes 8) r := by
    intro r hr
    obtain rfl := List.mem_singleton.1 hr
    exact ⟨length_requestBytes 8, fun _ => 0, by decide +kernel⟩
  refine ⟨s, hs, (fill_batched_iff hs hadm backup_replicaZero
    (by decide) (by decide) (by decide) (by decide)).2 ⟨by simp [ChoicesFit, nonDet], ?_⟩⟩
  intro p _
  have hwhole : Request.CommandInside (Memory.ofBytes (requestBytes 8) fun _ => 0) := by
    decide +kernel
  exact .inl hwhole

/-- **A request shorter than it says**: the primary verified it in front of the bytes that came
behind it. In the batch there are others, and the backup refuses the whole message. -/
theorem headerOnly_refused : ∃ s : Queues, s.Holds false (queued 56) ∧
    (∀ r ∈ (queued 56).reqs, Admitted (fun _ => 0) replicaZero (fun _ => requestHeader 56 8) r) ∧
    ¬ Batched (fun _ => 0) (fun _ _ => 0) replicaZero fourReplicas
      (fun _ _ => false) (fun _ => requestHeader 56 8) (fun _ => []) 16384 8 0 1
      (fun _ => 0) s (queued 56) := by
  obtain ⟨s, hs⟩ := holds_queued 56
  refine ⟨s, hs, fun r hr => ?_, ?_⟩
  · obtain rfl := List.mem_singleton.1 hr
    exact ⟨by decide, fun a => if a = 65 then 1 else 0, by decide +kernel⟩
  · rintro ⟨s', f', rs, msg, hfill, -, -, -, -, -, hd⟩
    obtain ⟨t, g, ht, -⟩ := fill_eq (fun _ => 0) (fun _ _ => 0)
      replicaZero (fun _ => requestHeader 56 8) (fun _ => []) 16384 8 0 1 hs
    rw [ht, if_pos (by decide)] at hfill
    obtain ⟨-, hpair⟩ := Prod.mk.inj (Option.some.inj hfill)
    obtain ⟨-, rfl⟩ := Prod.mk.inj hpair
    exact absurd hd.accepted (by decide +kernel)

end Batching

/-! ## The first request -/

/-- The nodes of the clients that the queue holds a request of are linked, and counted. -/
structure ReqQueue.Links (q : ReqQueue) (cids : List Nat) : Prop where
  list : q.list.IsList cids
  nodup : cids.Nodup
  held : ∀ c, q.held c = true ↔ c ∈ cids
  nelems : q.nelems = cids.length

def ReqQueue.Linked (q : ReqQueue) : Prop := ∃ cids, q.Links cids

namespace Queues

variable {s s' : Queues} {ro : Bool} {r : Req} {cid rid slot : Nat} {b : Bool} {limit : Int}

theorem linked_removeClient (h : (s.queue ro).Linked)
    (hr : s.removeClient ro cid rid = some (s', b)) :
    ∃ q, s' = s.setQueue ro q ∧ q.Linked ∧ (∀ c, q.held c = true → (s.queue ro).held c = true) ∧
      ((s.queue ro).held cid = true → (s.requests cid).rid ≤ rid → q.held cid = false) := by
  obtain ⟨cids, hl⟩ := h
  unfold Queues.removeClient at hr
  dsimp only at hr
  split at hr
  · rename_i hguard
    simp only [Bool.and_eq_true, decide_eq_true_eq] at hguard
    obtain ⟨l₁, l₂, rfl⟩ := List.append_of_mem ((hl.held cid).1 hguard.1)
    obtain ⟨d, hd, hdl⟩ := hl.list.unlink hl.nodup
    rw [hd] at hr
    obtain ⟨rfl, -⟩ := Prod.mk.inj (Option.some.inj hr)
    have hnd := hl.nodup
    rw [List.nodup_append, List.nodup_cons] at hnd
    obtain ⟨hnd₁, ⟨hc₂, hnd₂⟩, hdisj⟩ := hnd
    have hc₁ : cid ∉ l₁ := fun hc => hdisj cid hc cid List.mem_cons_self rfl
    refine ⟨_, rfl, ⟨l₁ ++ l₂, hdl, ?_, fun c => ?_, ?_⟩,
      fun c hc => ?_, fun _ _ => Function.update_self ..⟩
    · exact List.nodup_append.2 ⟨hnd₁, hnd₂, fun x hx y hy =>
        hdisj x hx y (List.mem_cons_of_mem _ hy)⟩
    · simp only [Function.update_apply]
      by_cases hc : c = cid
      · subst hc
        simp [hc₁, hc₂]
      · rw [if_neg hc, hl.held c]
        simp [hc]
    · have := hl.nelems
      simp only [List.length_append, List.length_cons] at this ⊢
      omega
    · simp only [Function.update_apply] at hc
      split at hc
      · cases hc
      · exact hc
  · rename_i hguard
    simp only [Bool.and_eq_true, decide_eq_true_eq, not_and] at hguard
    obtain ⟨rfl, -⟩ := Prod.mk.inj (Option.some.inj hr)
    refine ⟨s.queue ro, ?_, ⟨cids, hl⟩, fun c hc => hc, fun h1 h2 => absurd h2 (hguard h1)⟩
    simp [setQueue]

theorem linked_store (h : (s.queue ro).Linked) (hheld : (s.queue ro).held r.cid = false)
    (hs : s.store slot ro r = some s') :
    ∃ q, s' = { s.setQueue ro q with requests := Function.update s.requests r.cid r } ∧ q.Linked ∧
      ∀ c, q.held c = true → c = r.cid ∨ (s.queue ro).held c = true := by
  obtain ⟨cids, hl⟩ := h
  have hnot : r.cid ∉ cids := by
    rw [← hl.held, hheld]
    simp
  obtain ⟨d, hd, hdl⟩ := hl.list.pushBack hl.nodup hnot
  unfold Queues.store at hs
  split at hs
  · dsimp only at hs
    rw [hd] at hs
    obtain rfl := Option.some.inj hs
    refine ⟨_, rfl, ⟨cids ++ [r.cid], hdl, ?_, fun c => ?_, ?_⟩, fun c hc => ?_⟩
    · refine List.nodup_append.2 ⟨hl.nodup, List.nodup_singleton _, fun x hx y hy => ?_⟩
      rintro rfl
      exact hnot (List.mem_singleton.1 hy ▸ hx)
    · simp only [Function.update_apply]
      by_cases hc : c = r.cid
      · simp [hc]
      · rw [if_neg hc, hl.held c]
        simp [hc]
    · have := hl.nelems
      simp only [List.length_append, List.length_cons, List.length_nil]
      omega
    · simp only [Function.update_apply] at hc
      split at hc
      · exact .inl ‹_›
      · exact .inr hc
  · cases hs

theorem linked_pop {o : Option Req} (h : (s.queue ro).Linked) (hp : s.pop ro = some (s', o)) :
    ∃ q, s' = s.setQueue ro q ∧ q.Linked ∧ ∀ c, q.held c = true → (s.queue ro).held c = true := by
  obtain ⟨cids, hl⟩ := h
  unfold Queues.pop at hp
  dsimp only at hp
  cases hh : (s.queue ro).list.head with
  | none =>
    rw [hh] at hp
    obtain ⟨rfl, -⟩ := Prod.mk.inj (Option.some.inj hp)
    exact ⟨s.queue ro, by simp [setQueue], ⟨cids, hl⟩, fun c hc => hc⟩
  | some h =>
    rw [hh] at hp
    have hlist := hl.list
    have hnd := hl.nodup
    have hheld := hl.held
    have hnelems := hl.nelems
    cases cids with
    | nil =>
      have : (s.queue ro).list.head = none := hlist.1
      rw [hh] at this
      cases this
    | cons c cs =>
      have hc : (s.queue ro).list.head = some c := hlist.1
      obtain rfl : h = c := Option.some.inj (hh.symm.trans hc)
      obtain ⟨d, hd, hdl⟩ := Dll.IsList.popFront hlist hnd
      have hc' := (hheld h).2 List.mem_cons_self
      simp only [hc', Bool.not_true, Bool.false_eq_true,
        if_false, hd, Option.bind_eq_bind, Option.bind_some] at hp
      obtain ⟨rfl, -⟩ := Prod.mk.inj (Option.some.inj hp)
      refine ⟨_, rfl, ⟨cs, hdl, (List.nodup_cons.1 hnd).2, fun x => ?_, ?_⟩, fun x hx => ?_⟩
      · simp only [Function.update_apply]
        by_cases hx : x = h
        · subst hx
          simp [(List.nodup_cons.1 hnd).1]
        · rw [if_neg hx, hheld x]
          simp [hx]
      · simp only [List.length_cons] at hnelems
        dsimp only
        omega
      · simp only [Function.update_apply] at hx
        split at hx
        · cases hx
        · exact hx

/-- The requests in the queues are not longer than `limit`. A block is that of both queues. -/
structure Bounded (limit : Int) (s : Queues) : Prop where
  linked : ∀ ro, (s.queue ro).Linked
  sizes : ∀ ro c, (s.queue ro).held c = true → (s.requests c).size ≤ limit

/-- A request that joins a queue is not longer than `limit`. -/
def Fits (limit : Int) (_ : Queues) : Op → Prop
  | .append _ r => r.size ≤ limit
  | _ => True

theorem bounded_init (limit : Int) (requests : Nat → Req) : Bounded limit (init requests) :=
  ⟨fun _ => ⟨[], Dll.isList_empty _, List.nodup_nil, by simp [init], rfl⟩, fun _ _ h => by cases h⟩

theorem linked_setQueue {q : ReqQueue} (h : ∀ ro, (s.queue ro).Linked) (hq : q.Linked)
    (ro' : Bool) : ((s.setQueue ro q).queue ro').Linked := by
  unfold Queues.setQueue
  dsimp only
  rw [Function.update_apply]
  split
  · exact hq
  · exact h ro'

/-- A client that has a request after the change had one before, or got it from the new queue. -/
theorem held_setQueue {q : ReqQueue} {ro' : Bool} {c : Nat}
    (h : ((s.setQueue ro q).queue ro').held c = true) :
    q.held c = true ∨ (s.queue ro').held c = true := by
  unfold Queues.setQueue at h
  dsimp only at h
  rw [Function.update_apply] at h
  split at h
  · exact .inl h
  · exact .inr h

theorem Bounded.setQueue {q : ReqQueue} (h : Bounded limit s) (hq : q.Linked)
    (hheld : ∀ c, q.held c = true → (s.queue ro).held c = true) :
    Bounded limit (s.setQueue ro q) := by
  refine ⟨linked_setQueue h.linked hq, fun ro' c hc => ?_⟩
  rcases held_setQueue hc with hc | hc
  · exact h.sizes ro c (hheld c hc)
  · exact h.sizes ro' c hc

theorem Bounded.store (h : Bounded limit s) (hheld : (s.queue ro).held r.cid = false)
    (hfits : r.size ≤ limit) (hs : s.store slot ro r = some s') : Bounded limit s' := by
  obtain ⟨q, rfl, hq, hcases⟩ := linked_store (h.linked ro) hheld hs
  refine ⟨linked_setQueue h.linked hq, fun ro' c hc => ?_⟩
  dsimp only
  rw [Function.update_apply]
  split
  · exact hfits
  · rename_i hne
    rcases held_setQueue hc with hc | hc
    · exact h.sizes ro c ((hcases c hc).resolve_left hne)
    · exact h.sizes ro' c hc

/-- **One operation** keeps the queues bounded, if what joins them is. -/
theorem Bounded.step (h : Bounded limit s) {op : Op} (hfits : Fits limit s op)
    (hs : Queues.step slot s op = some s') : Bounded limit s' := by
  obtain ⟨⟨t, res⟩, ha, rfl⟩ := Option.map_eq_some_iff.1 hs
  cases op with
  | append ro r =>
    simp only [Queues.apply, Option.map_eq_some_iff] at ha
    obtain ⟨⟨t, b⟩, ha, hres⟩ := ha
    obtain ⟨rfl, -⟩ := Prod.mk.inj hres
    unfold Queues.append at ha
    split at ha
    · rename_i hheld
      split at ha
      · rename_i hlt
        simp only [Option.bind_eq_bind, Option.bind_eq_some_iff] at ha
        obtain ⟨⟨u, b'⟩, hu, t', ht', hret⟩ := ha
        obtain ⟨rfl, -⟩ := Prod.mk.inj (Option.some.inj hret)
        obtain ⟨q, rfl, hq, hsub, hfree⟩ := linked_removeClient (h.linked ro) hu
        refine (h.setQueue hq hsub).store ?_ hfits ht'
        rw [setQueue_self]
        exact hfree hheld hlt.le
      · obtain ⟨rfl, -⟩ := Prod.mk.inj (Option.some.inj ha)
        exact h
    · rename_i hheld
      simp only [Option.bind_eq_bind, Option.bind_eq_some_iff] at ha
      obtain ⟨t', ht', hret⟩ := ha
      obtain ⟨rfl, -⟩ := Prod.mk.inj (Option.some.inj hret)
      exact h.store (by simpa using hheld) hfits ht'
  | pop ro =>
    simp only [Queues.apply, Option.map_eq_some_iff] at ha
    obtain ⟨⟨t, o⟩, ha, hres⟩ := ha
    obtain ⟨rfl, -⟩ := Prod.mk.inj hres
    obtain ⟨q, rfl, hq, hsub⟩ := linked_pop (h.linked ro) ha
    exact h.setQueue hq hsub
  | removeClient ro cid rid =>
    simp only [Queues.apply, Option.map_eq_some_iff] at ha
    obtain ⟨⟨t, b⟩, ha, hres⟩ := ha
    obtain ⟨rfl, -⟩ := Prod.mk.inj hres
    obtain ⟨q, rfl, hq, hsub, -⟩ := linked_removeClient (h.linked ro) ha
    exact h.setQueue hq hsub

end Queues

namespace Batching

open PrePrepareBytes

variable {hash : List UInt8 → Digest} {hmac : List UInt8 → List UInt8 → Digest} {N : TinyBFT.Node}
    {contents : Req → List UInt8}
  {nonDetChoices : Int → List UInt8} {msize maxNd slot : Nat} {v n : Int} {s s' : Queues}
  {rs : List Req} {msg : List UInt8} {free : Int}

/-- `max_request_size`, the size of a slot for a request: `MAX_REQUEST_SIZE` leaves room for the
header and the authenticator of a pre-prepare, but not for its choices. -/
def maxRequestSize (P : Params) : Nat :=
  alignedSize (P.maxMessageSize - 64 - P.authenticatorSize - 56 - 256 - 4 + 56 + 4 + 256)

/-- A pre-prepare that is built while there are requests has one. -/
def Included (hash : List UInt8 → Digest) (hmac : List UInt8 → List UInt8 → Digest)
    (N : TinyBFT.Node) (contents : Req → List UInt8) (nonDetChoices : Int → List UInt8)
    (msize maxNd : Nat) (v n : Int) (s : Queues) : Prop :=
  0 < (s.queue false).nelems → ∀ s' rs msg,
    fill hash hmac N contents nonDetChoices msize maxNd v n s = some (s', rs, msg) → rs ≠ []

/-- The loop takes the first request unless it is too long. -/
theorem fillLoop_first {fuel : Nat} {r : Req} (hf : s.first false = some (some r))
    (hle : r.size ≤ free) (h : fillLoop fuel s free = some (s', rs)) : rs ≠ [] := by
  cases fuel with
  | zero => cases h
  | succ fuel =>
    unfold fillLoop at h
    rw [hf] at h
    simp only [Option.bind_eq_bind, Option.bind_some, if_neg (show ¬ free < r.size by omega),
      Option.bind_eq_some_iff] at h
    obtain ⟨p, -, q, -, hret⟩ := h
    obtain ⟨-, rfl⟩ := Prod.mk.inj (Option.some.inj hret)
    exact List.cons_ne_nil _ _

theorem fill_loop
    (h : fill hash hmac N contents nonDetChoices msize maxNd v n s = some (s', rs, msg)) :
    fillLoop ((s.queue false).nelems.toNat + 1) s (maxReq N msize maxNd) = some (s', rs) := by
  unfold fill at h
  simp only [Option.bind_eq_bind, Option.bind_eq_some_iff] at h
  obtain ⟨⟨t, qs⟩, hloop, h⟩ := h
  dsimp only at h
  split at h
  · obtain ⟨rfl, hpair⟩ := Prod.mk.inj (Option.some.inj h)
    obtain ⟨rfl, -⟩ := Prod.mk.inj hpair
    exact hloop
  · cases h

/-- **No request stays in front**: in every run of the queues in which the requests that join them
are not longer than a pre-prepare has room for, a pre-prepare that is built while there are requests
has one. -/
theorem fill_included {requests : Nat → Req} {ops : List Queues.Op}
    (hm : Run.Meets (Queues.step slot) (Queues.Fits (maxReq N msize maxNd))
      (Queues.init requests) ops)
    (hr : Run.run (Queues.step slot) (Queues.init requests) ops = some s) :
    Included hash hmac N contents nonDetChoices msize maxNd v n s := by
  have hb := Run.invariant (fun s op s' h hfits hs => Queues.Bounded.step h hfits hs)
    (Queues.bounded_init _ requests) hm hr
  intro hpos s' rs msg hfill
  obtain ⟨cids, hl⟩ := hb.linked false
  have hlist := hl.list
  have hheld := hl.held
  have hnelems := hl.nelems
  cases cids with
  | nil =>
    rw [List.length_nil] at hnelems
    omega
  | cons c cs =>
    have hhead : (s.queue false).list.head = some c := hlist.1
    have hc := (hheld c).2 List.mem_cons_self
    have hfirst : s.first false = some (some (s.requests c)) := by
      unfold Queues.first
      rw [hhead]
      exact if_pos hc
    exact fillLoop_first hfirst (hb.sizes false c hc) (fill_loop hfill)

/-- A request that is too long stays in front: the pre-prepare is empty and the queue as it was. -/
theorem fill_blocked (hash : List UInt8 → Digest) (hmac : List UInt8 → List UInt8 → Digest)
    (contents : Req → List UInt8) (nonDetChoices : Int → List UInt8) (v n : Int) {r : Req}
    (hf : s.first false = some (some r)) (hlt : maxReq N msize maxNd < r.size) :
    fill hash hmac N contents nonDetChoices msize maxNd v n s =
      some (s, [], message hash hmac N contents nonDetChoices v n []) := by
  have hloop : fillLoop ((s.queue false).nelems.toNat + 1) s (maxReq N msize maxNd) =
    some (s, []) := by
    unfold fillLoop
    rw [hf]
    simp only [Option.bind_eq_bind, Option.bind_some, if_pos hlt]
  unfold fill
  rw [hloop]
  simp only [Option.bind_eq_bind, Option.bind_some]
  exact if_pos ⟨rfl, by simp [nonDet, body]⟩

/-- A small window and small messages. -/
def smallMessages : Params where
  maxOut := 16
  ckptInterval := 8
  maxNumReplicas := 4
  maxMessageSize := 2048
  maxOut_pos := by decide
  ckptInterval_pos := Nat.succ_pos 7
  viewChange_fits := by decide
  maxMessageSize_le := by decide

/-- The primary of four replicas with these. -/
def smallPrimary : TinyBFT.Node :=
  { fourReplicas with P := smallMessages, id := 0, replicas_le := by decide }

/-- The first request of a run. -/
theorem run_append (slot : Nat) (r : Req) (requests : Nat → Req) (h : r.size ≤ slot) :
    ∃ s, Run.run (Queues.step slot) (Queues.init requests) [.append false r] = some s ∧
      s.first false = some (some r) ∧
      0 < (s.queue false).nelems := by
  obtain ⟨s, hs, -, hholds, -⟩ :=
    (Queues.holds_init requests false).append (r := r) (fun hheld => by cases hheld) h
  refine ⟨s, ?_, hholds.first, ?_⟩
  · simp [Run.run, Queues.step, Queues.apply, hs]
  · rw [hholds.nelems]
    exact Int.one_pos

theorem short_included : ∃ s, Run.run (Queues.step (maxRequestSize smallMessages)) (Queues.init
      fun c => ⟨c, 0, false, 0, [], 0⟩)
    [.append false ⟨4, 1, false, 0, [], 328⟩] = some s ∧
    Included (fun _ => 0) (fun _ _ => 0) smallPrimary (fun _ => requestBytes 8)
      (fun _ => []) 2048 8 0 1 s := by
  obtain ⟨s, hs, -, -⟩ := run_append (maxRequestSize smallMessages) ⟨4, 1, false, 0, [], 328⟩
    (fun c => ⟨c, 0, false, 0, [], 0⟩) (by decide)
  have hfits :
    Queues.Fits (maxReq smallPrimary 2048 8) (Queues.init fun c => ⟨c, 0, false, 0, [], 0⟩)
      (.append false ⟨4, 1, false, 0, [], 328⟩) := by
    unfold Queues.Fits
    decide
  have hm : Run.Meets (Queues.step (maxRequestSize smallMessages))
    (Queues.Fits (maxReq smallPrimary 2048 8))
      (Queues.init fun c => ⟨c, 0, false, 0, [], 0⟩) [.append false ⟨4, 1, false, 0, [], 328⟩] :=
        ⟨hfits, fun _ _ => trivial⟩
  exact ⟨s, hs, fill_included hm hs⟩

/-- **A request of the size of a slot** with choices of eight bytes: it is received, verified and
stored, and no pre-prepare has room for it. -/
theorem slotSize_blocked : ∃ s,
    Admitted (fun _ => 0) smallPrimary (fun _ => requestBytes 1568) ⟨4, 1, false, 0, [], 1888⟩ ∧
    Run.run (Queues.step (maxRequestSize smallMessages)) (Queues.init
        fun c => ⟨c, 0, false, 0, [], 0⟩)
      [.append false ⟨4, 1, false, 0, [], 1888⟩] = some s ∧
    ¬ Included (fun _ => 0) (fun _ _ => 0) smallPrimary
      (fun _ => requestBytes 1568) (fun _ => []) 2048 8 0 1 s := by
  obtain ⟨s, hs, hfirst, hpos⟩ :=
    run_append (maxRequestSize smallMessages) ⟨4, 1, false, 0, [], 1888⟩
    (fun c => ⟨c, 0, false, 0, [], 0⟩) (by decide)
  refine ⟨s, ⟨length_requestBytes 1568, fun _ => 0, by decide +kernel⟩, hs, fun h => ?_⟩
  exact h hpos _ _ _ (fill_blocked (fun _ => 0) (fun _ _ => 0)
    (fun _ => requestBytes 1568) (fun _ => []) 0 1 hfirst (by decide)) rfl

end Batching

end TinyBFT
