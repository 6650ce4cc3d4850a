import TinyBFT.Request

/-!
# The check of a pre-prepare, byte by byte (`Pre_prepare.cc`)

`PrePrepare` has the fields of a message and the memory behind its header; here they are read from
the bytes that came over the network, and the signatures and authenticators are read where the code
reads them.

| here | there |
| --- | --- |
| `received`      | the fields of `Pre_prepare_rep`, 64 bytes, and the memory from `requests()` on |
| `Caller`        | `verify` in one of its modes, or `check_digest` |
| `requestOk`     | the test of the loops on one request (`Pre_prepare.cc:134`, `:180-182`) |
| `Loop`          | a loop over the request set, with any test of the requests; `Requests_iter` has none |
| `scan`, `iter`  | the loops with a bound on their passes, which never matters |
| `accepts`       | `verify` and `check_digest` (`Pre_prepare.cc:116-221`) |

`convert` asks that eight bytes of the set are left, and `has_tag` that a request is long enough and
aligned: nothing compares the size of a request with what is left of the set, nor `rset_size` with
`size()`.
-/

namespace TinyBFT

/-- The digest that lies in memory. -/
def Digest.ofBytes (bs : List UInt8) : Digest := BitVec.ofNat 256 (Bytes.toNat bs)

theorem Digest.bytes_eq_ofNat (d : Digest) : d.bytes = Bytes.ofNat 32 d.toNat := by
  have h : ∀ len x, Bytes.ofNat len x = (List.range len).map
    fun i => UInt8.ofNat (x / 256 ^ i) := by
    intro len
    induction len with
    | zero => exact fun x => rfl
    | succ len ih =>
      intro x
      rw [Bytes.ofNat, ih, List.range_succ_eq_map, List.map_cons, List.map_map]
      simp [Function.comp_def, Nat.div_div_eq_div_mul, Nat.pow_succ, Nat.mul_comm]
  rw [h]
  apply List.map_congr_left
  intro i _
  apply UInt8.toBitVec_inj.1
  apply BitVec.eq_of_toNat_eq
  have hpow : 2 ^ (8 * i) = 256 ^ i := by rw [Nat.pow_mul]
  simp [BitVec.extractLsb'_toNat, Nat.shiftRight_eq_div_pow, hpow]

theorem Digest.ofBytes_bytes (d : Digest) : Digest.ofBytes d.bytes = d := by
  unfold Digest.ofBytes
  rw [Digest.bytes_eq_ofNat, Bytes.toNat_ofNat, Nat.mod_eq_of_lt d.isLt,
    BitVec.ofNat_toNat, BitVec.setWidth_eq]

namespace PrePrepareBytes

open PrePrepare Wire

def received (mem : Memory) : PrePrepareRep where
  view := Wire.seqno mem 8
  seqno := Wire.seqno mem 16
  digest := Digest.ofBytes (mem.slice 24 32)
  rsetSize := int mem 56
  nonDetSize := short mem 60
  size := Wire.size mem
  mem := mem.shift 64

/-- A request of the set as a message of its own. -/
def requestMem (m : PrePrepareRep) (a : Int) : Memory := Memory.shift m.mem a

inductive Caller
  | verify (mode : Mode)
  | checkDigest
deriving DecidableEq, Repr

section

variable (hash : List UInt8 → Digest) (hmac : List UInt8 → List UInt8 → Digest) (N : TinyBFT.Node)
  (hasReq : List UInt8 → List UInt8 → Bool)

/-- What the loop asks of the request at `a` besides that it converts. -/
def requestOk (m : PrePrepareRep) (a : Int) : Caller → Bool
  | .checkDigest => true
  | .verify mode =>
    mode == .nrc || (Request.verify hash N).run (requestMem m a) ||
      hasReq (requestAt m a).cid (requestAt m a).od

/-- The loop stops the whole check at the first request that fails. -/
def scan (ok : Int → Bool) (m : PrePrepareRep) : Nat → Int → Option (List Int)
  | fuel, a =>
    if a < m.rsetSize then
      match fuel with
      | 0 => none
      | fuel + 1 =>
        if convert m a (requestAt m a) && ok a then
          (scan ok m fuel (a + (requestAt m a).size)).map (a :: ·) else none
    else some []

/-- Where the requests are that `Requests_iter` yields. -/
def iter (m : PrePrepareRep) : Nat → Int → List Int
  | 0, _ => []
  | fuel + 1, a => if a < m.rsetSize then a :: iter m fuel (a + (requestAt m a).size) else []

/-- The authenticator is behind the requests and the choices: its offset is the sum of the two sizes
as an `int`. -/
def authenticated (mem : Memory) : Caller → Bool
  | .checkDigest | .verify .nac => true
  | .verify _ => (N.verifyAuthIn hmac (N.primary (received mem).view) 0 64
      (64 + toInt ((received mem).rsetSize + (received mem).nonDetSize))).run mem

def accepts (c : Caller) (mem : Memory) : Bool :=
  let m := received mem
  toInt (64 + m.rsetSize + m.nonDetSize + N.authSize (N.primary m.view)) ≤ m.size &&
    match scan (requestOk hash N hasReq m · c) m m.rsetSize.toNat 0 with
    | none => false
    | some as => m.rsetSize % 8 == 0 && 0 ≤ m.nonDetSize &&
        hash (digestInput (as.map (requestAt m)) (choices m)) == m.digest &&
          authenticated hmac N mem c

end

/-! ## The loops -/

/-- A loop over the request set that starts at `a`: `ok` holds of the requests it passes, and it
ends behind the last one. -/
inductive Loop (ok : Int → Bool) (m : PrePrepareRep) : Int → List Int → Prop
  | done {a : Int} (h : m.rsetSize ≤ a) : Loop ok m a []
  | next {a : Int} {as : List Int} (h : a < m.rsetSize) (hok : ok a = true)
    (ht : Loop ok m (a + (requestAt m a).size) as) : Loop ok m a (a :: as)

variable {ok ok' : Int → Bool} {m : PrePrepareRep} {a b : Int} {as bs : List Int}

/-- The test of `convert` and the one of the caller. -/
def tested (ok : Int → Bool) (m : PrePrepareRep) (a : Int) : Bool :=
  convert m a (requestAt m a) && ok a

theorem scan_sound {fuel : Nat} (h : scan ok m fuel a = some as) : Loop (tested ok m) m a as := by
  induction fuel generalizing a as with
  | zero =>
    by_cases ha : a < m.rsetSize
    · simp [scan, ha] at h
    · unfold scan at h
      rw [if_neg ha] at h
      obtain rfl := Option.some.inj h
      exact .done (by omega)
  | succ fuel ih =>
    unfold scan at h
    by_cases ha : a < m.rsetSize
    · rw [if_pos ha] at h
      dsimp only at h
      split at h
      · rename_i hok
        obtain ⟨as', has', rfl⟩ := Option.map_eq_some_iff.1 h
        exact .next ha hok (ih has')
      · cases h
    · rw [if_neg ha] at h
      obtain rfl := Option.some.inj h
      exact .done (by omega)

/-- A loop without a test passes the same requests. -/
theorem Loop.forget (h : Loop ok m a as) : Loop (fun _ => true) m a as := by
  induction h with
  | done h => exact .done h
  | next h _ _ ih => exact .next h rfl ih

/-- Where a loop starts decides what it passes. -/
theorem Loop.unique (h : Loop ok m a as) (h' : Loop ok' m a bs) : as = bs := by
  induction h generalizing bs with
  | done h =>
    cases h' with
    | done _ => rfl
    | next h1 _ _ => omega
  | next h _ _ ih =>
    cases h' with
    | done h1 => omega
    | next _ _ ht => rw [ih ht]

theorem Loop.mem (h : Loop ok m a as) (hb : b ∈ as) : ok b = true ∧ b < m.rsetSize := by
  induction h with
  | done _ => cases hb
  | next h hok _ ih =>
    rcases List.mem_cons.1 hb with rfl | hb
    · exact ⟨hok, h⟩
    · exact ih hb

theorem convert_size (h : convert m a (requestAt m a) = true) :
    56 ≤ (requestAt m a).size ∧ (requestAt m a).size % 8 = 0 := by
  simp only [convert, Bool.and_eq_true, decide_eq_true_eq, beq_iff_eq] at h
  exact ⟨h.1.2, h.2⟩

/-- Requests that convert are found one behind the other. -/
theorem Loop.le (h : Loop (tested ok m) m a as) (hb : b ∈ as) : a ≤ b := by
  induction h with
  | done _ => cases hb
  | next h hok _ ih =>
    rcases List.mem_cons.1 hb with rfl | hb
    · exact le_rfl
    · have := (convert_size (Bool.and_eq_true _ _ ▸ hok).1).1
      have := ih hb
      omega

/-- With requests that convert, as many passes as there are bytes are enough. -/
theorem Loop.iter_eq (h : Loop (tested ok m) m a as) {fuel : Nat}
    (hf : (m.rsetSize - a).toNat ≤ fuel) : iter m fuel a = as := by
  induction h generalizing fuel with
  | done h =>
    cases fuel with
    | zero => rfl
    | succ fuel => simp [iter, show ¬ _ < m.rsetSize from not_lt.2 h]
  | next h hok _ ih =>
    have := (convert_size (Bool.and_eq_true _ _ ▸ hok).1).1
    cases fuel with
    | zero => omega
    | succ fuel => rw [iter, if_pos h, ih (by omega)]

theorem Loop.scan_eq (h : Loop (tested ok m) m a as) {fuel : Nat}
    (hf : (m.rsetSize - a).toNat ≤ fuel) : scan ok m fuel a = some as := by
  induction h generalizing fuel with
  | done h =>
    unfold scan
    rw [if_neg (by omega)]
  | next h hok _ ih =>
    have := (convert_size (Bool.and_eq_true _ _ ▸ hok).1).1
    cases fuel with
    | zero => omega
    | succ fuel =>
      unfold scan
      unfold tested at hok
      rw [if_pos h]
      dsimp only
      rw [if_pos hok, ih (by omega)]
      rfl

/-! ## What an accepted message is like -/

section

variable (hash : List UInt8 → Digest) (hmac : List UInt8 → List UInt8 → Digest) (N : TinyBFT.Node)
  (hasReq : List UInt8 → List UInt8 → Bool)

/-- The bytes of a request: its header, its command and the signature of its client. -/
def requestLength (m : PrePrepareRep) (a : Int) : Int :=
  56 + (requestAt m a).commandSize +
    ((Request.client N (requestMem m a)).elim 0 Principal.sigSize : Nat)

/-- The request, with all its parts, is in the set. -/
structure RequestInside (m : PrePrepareRep) (a : Int) : Prop where
  start : 0 ≤ a
  header : a + 56 ≤ m.rsetSize
  whole : a + (requestAt m a).size ≤ m.rsetSize
  command : 0 ≤ (requestAt m a).commandSize
  parts : a + requestLength N m a ≤ m.rsetSize

/-- **What parsing in bounds means** for a message that is accepted: the sizes are sizes and all the
parts are in the message; the loop of the check and `Requests_iter` end, pass the same requests, and
these lie in the request set. -/
structure InBounds (c : Caller) (m : PrePrepareRep) : Prop where
  sizes : 0 ≤ m.rsetSize ∧ 0 ≤ m.nonDetSize
  parts : 64 + m.rsetSize + m.nonDetSize + N.authSize (N.primary m.view) ≤ m.size
  requests : ∃ as, Loop (tested (requestOk hash N hasReq m · c) m) m 0 as ∧
    Loop (fun _ => true) m 0 as ∧
    hash (digestInput (as.map (requestAt m)) (choices m)) = m.digest ∧ ∀ a ∈ as, RequestInside N m a

/-- What the check does not look at: the size of the set against that of the message, and the sizes
of each request against what is left of the set. -/
structure SizesFit (m : PrePrepareRep) : Prop where
  rset : 0 ≤ m.rsetSize ∧ m.rsetSize ≤ m.size
  request : ∀ a ∈ iter m m.rsetSize.toNat 0, 0 ≤ (requestAt m a).commandSize ∧
    (requestAt m a).size ⊔ requestLength N m a ≤ m.rsetSize - a

end

variable {hash : List UInt8 → Digest} {hmac : List UInt8 → List UInt8 → Digest} {N : TinyBFT.Node}
  {hasReq : List UInt8 → List UInt8 → Bool} {c : Caller} {mem : Memory}

/-- Whatever accepts a message has compared a sum of its sizes with that of the message, ended its
loop and compared the digest. -/
theorem accepts_spec (h : accepts hash hmac N hasReq c mem = true) :
    toInt (64 + (received mem).rsetSize + (received mem).nonDetSize +
        N.authSize (N.primary (received mem).view)) ≤ (received mem).size ∧
      0 ≤ (received mem).nonDetSize ∧ ∃ as, Loop
        (tested (requestOk hash N hasReq (received mem) · c) (received mem)) (received mem) 0 as ∧
        hash (digestInput (as.map (requestAt (received mem))) (choices (received mem))) =
          (received mem).digest := by
  simp only [accepts, Bool.and_eq_true, decide_eq_true_eq] at h
  obtain ⟨hsum, h⟩ := h
  split at h
  · cases h
  · rename_i as has
    simp only [Bool.and_eq_true, beq_iff_eq, decide_eq_true_eq] at h
    exact ⟨hsum, h.1.1.2, as, scan_sound has, h.1.2⟩

theorem parse_of_scan {ok : Int → Bool} {m : PrePrepareRep} :
    ∀ {fuel : Nat} {a : Int} {as : List Int}, scan ok m fuel a = some as →
    parse (fun _ => true) m fuel a = some (as.map (requestAt m))
  | fuel, a, as, h => by
    unfold scan at h
    by_cases ha : a < m.rsetSize
    · rw [if_pos ha] at h
      cases fuel with
      | zero => cases h
      | succ fuel =>
        dsimp only at h
        split at h
        · rename_i hok
          obtain ⟨as', has', rfl⟩ := Option.map_eq_some_iff.1 h
          rw [parse_succ ha, if_pos (by rw [Bool.and_true]; exact (Bool.and_eq_true _ _ ▸ hok).1),
            parse_of_scan has']
          rfl
        · cases h
    · rw [if_neg ha] at h
      obtain rfl := Option.some.inj h
      exact parse_of_ge (by omega)

/-- What is accepted byte by byte, `PrePrepare.checkDigest` accepts: `Accepted` holds of it. -/
theorem accepted_of_accepts (N' : PrePrepare.Node)
    (hN : N'.authSize = N.authSize (N.primary (received mem).view))
    (h : accepts hash hmac N hasReq c mem = true) : Accepted hash N' (received mem) := by
  right
  simp only [accepts, Bool.and_eq_true] at h
  obtain ⟨hsum, h⟩ := h
  split at h
  · cases h
  · rename_i as has
    simp only [Bool.and_eq_true] at h
    simp only [checkDigest, digestOk, hN, parse_of_scan has, Bool.and_eq_true]
    exact ⟨hsum, h.1⟩

theorem authSize_le (N : TinyBFT.Node) (i : Int) : N.authSize i ≤ 32 * N.P.maxNumReplicas := by
  have h := N.replicas_le
  unfold TinyBFT.Node.authSize
  dsimp only
  generalize (if i < 0 then (N.id : Int) else i) = j
  split <;> omega

/-- The sum of the sizes is what it seems if the set is not longer than the message. -/
theorem sum_eq {P : Params} (hr : Received mem P 3 64)
    (h : 0 ≤ (received mem).rsetSize ∧ (received mem).rsetSize ≤ (received mem).size)
    (hn : 0 ≤ (received mem).nonDetSize) (i : Int) :
    toInt (64 + (received mem).rsetSize + (received mem).nonDetSize + N.authSize i) =
      64 + (received mem).rsetSize + (received mem).nonDetSize + N.authSize i := by
  have h1 : N.authSize i ≤ 65507 + 32 := by
    have h1 := authSize_le N i
    have h2 := N.P.viewChange_fits
    have h3 := N.P.maxMessageSize_le
    omega
  have h2 : (received mem).size ≤ 65507 + 7 := by
    have h2 := hr.spec.2.2.2
    have h3 := P.maxMessageSize_le
    have h4 := alignedSize_lt P.maxMessageSize
    have h5 : (received mem).size = Wire.size mem := rfl
    omega
  have h3 : (received mem).nonDetSize < 32768 := by
    have h3 := (@short_bounds mem 60).2
    have h4 : (received mem).nonDetSize = short mem 60 := rfl
    omega
  clear hr
  generalize (received mem).nonDetSize = nd at *
  generalize (received mem).rsetSize = rs at *
  generalize (received mem).size = sz at *
  generalize N.authSize i = au at *
  refine toInt_eq_self ?_ ?_
  · omega
  · omega

/-- **Parsing of a pre-prepare**: a message that is accepted, by whatever check, is parsed in bounds
if and only if its sizes fit. -/
theorem accepts_inBounds_iff {P : Params} (hr : Received mem P 3 64)
    (h : accepts hash hmac N hasReq c mem = true) :
    InBounds hash N hasReq c (received mem) ↔ SizesFit N (received mem) := by
  obtain ⟨hsum, hn, as, hloop, hdig⟩ := accepts_spec h
  have hiter : iter (received mem) (received mem).rsetSize.toNat 0 = as := hloop.iter_eq (by omega)
  constructor
  · intro hb
    refine ⟨⟨hb.sizes.1, ?_⟩, fun a ha => ?_⟩
    · have := hb.parts
      omega
    · obtain ⟨bs, hbs, -, -, hin⟩ := hb.requests
      rw [hiter, hloop.unique hbs] at ha
      have hi := hin a ha
      have h1 := hi.whole
      have h2 := hi.parts
      exact ⟨hi.command, by omega⟩
  · intro hf
    refine ⟨⟨hf.rset.1, hn⟩, by rw [← sum_eq hr hf.rset hn]; exact hsum,
      as, hloop, hloop.forget, hdig, fun a ha => ?_⟩
    obtain ⟨hcs, hmax⟩ := hf.request a (hiter ▸ ha)
    obtain ⟨hok, -⟩ := hloop.mem ha
    have hsize := (convert_size (Bool.and_eq_true _ _ ▸ hok).1).1
    exact ⟨hloop.le ha, by omega, by omega, hcs, by omega⟩

/-- A pre-prepare with one request of principal 0, with an empty command: the sizes of the message,
of the request set, of the choices and of the request. -/
def oneRequest (size rset choices request : UInt8 × UInt8) : Memory := Memory.ofBytes
  ([3, 0, 0, 0, size.1, size.2, 0, 0] ++ List.replicate 48 0 ++
    [rset.1, rset.2, 0, 0, choices.1, choices.2, 0, 0] ++
    [1, 0, 0, 0, request.1, request.2, 0, 0] ++ List.replicate 32 0 ++
    [255, 255, 0, 0, 0, 0, 0, 0, 1, 0, 0, 0, 0, 0, 0, 0] ++ [0, 1, 0, 0]) fun _ => 0

/-- One of four replicas, to which the signatures and authenticators look right. -/
def fourReplicas : TinyBFT.Node where
  P := .default
  id := 1
  numReplicas := 4
  numPrincipals := 5
  principals _ := ⟨⟨256, PublicKey.rsa2048_le, fun _ _ => true, fun _ _ => none⟩, some [], [], 0⟩
  v := 0
  curPrimary := 0
  replicas_pos := Node.four_pos
  replicas_le := Node.four_le

theorem oneRequest_inBounds : InBounds (fun _ => 0) fourReplicas (fun _ _ => false) (.verify .all)
    (received (oneRequest (232, 1) (72, 1) (0, 0) (72, 1))) := by
  have hr : Received (oneRequest (232, 1) (72, 1) (0, 0) (72, 1)) .default 3 64 := by decide
  have hacc : accepts (fun _ => 0) (fun _ _ => 0) fourReplicas (fun _ _ => false) (.verify .all)
      (oneRequest (232, 1) (72, 1) (0, 0) (72, 1)) = true := by decide +kernel
  exact (accepts_inBounds_iff hr hacc).2 ⟨by decide +kernel, by decide +kernel⟩

/-- A set of 64 bytes with a request that says that it has 4096. Its signature goes on in the 256
bytes of the choices. -/
def longRequest : Memory := oneRequest (224, 1) (64, 0) (0, 1) (0, 16)

/-- **A request longer than the set**: every check accepts the message. -/
theorem longRequest_accepted : Received longRequest .default 3 64 ∧
    (∀ c ∈ [Caller.verify .all, .verify .nac, .verify .nrc, .checkDigest],
      accepts (fun _ => 0) (fun _ _ => 0) fourReplicas (fun _ _ => false) c longRequest = true) ∧
    ∀ c, ¬ InBounds (fun _ => 0) fourReplicas (fun _ _ => false) c (received longRequest) := by
  refine ⟨by decide, by decide +kernel, fun c hb => ?_⟩
  obtain ⟨as, -, hloop, -, hin⟩ := hb.requests
  cases hloop with
  | done h => exact absurd h (by decide)
  | next _ _ _ => exact absurd (hin 0 List.mem_cons_self).whole (by decide +kernel)

end PrePrepareBytes

end TinyBFT
