import TinyBFT.Messages
import Mathlib.Data.List.Basic

/-!
# The bytes of a `Pre_prepare` and its digest (`Pre_prepare.cc`, `Request.cc`)

A pre-prepare holds a batch of requests, one after another, and the non-deterministic choices of the
primary. Its digest is the hash of the requests' `od` fields followed by the choices.

| here | there |
| --- | --- |
| `PrePrepareRep`  | `Pre_prepare_rep` and the memory from `requests()` on (`Pre_prepare.h:21-33`) |
| `RequestRep`     | `Request_rep` read at an address (`Request.h`), 56 bytes, and the command after it |
| `convert`        | `Request::convert`, `Message::convert`, `has_tag` (`Message.cc:101`, `Message.h:199`) |
| `parse`          | the loop of `verify` and `check_digest` over the request set (`Pre_prepare.cc:133-142`, `:179-188`) |
| `requestsIter`   | `Requests_iter` (`Pre_prepare.cc:223-237`), which checks nothing |
| `compDigest`     | `Request::comp_digest` (`Request.cc:50-58`): hashes `12 + command_size` bytes from `cid` on |
| `verifyRequest`  | `Request::verify` (`Request.cc:76-88`) |
| `verify`, `checkDigest` | `Pre_prepare.cc:116-221` |

SHA-256 (mbedtls) is the parameter `hash`. What else `verify` asks of the node is in `Node`. A size
that is negative after conversion makes the code read past every bound; the model does not accept
there. Client and request identifiers are kept as their bytes.

The `od` field of a request is compared with the hash of its body by `Request::verify` only. It is
not in mode `NRC`, in `check_digest`, and where `has_req` finds the digest in the local queue; the
batch that a digest stands for is then not determined (`digest_binds_batch` says when it is).
-/

namespace TinyBFT

/-- The 32 bytes of a digest, in memory order. -/
def Digest.bytes (d : Digest) : List UInt8 :=
  (List.range 32).map fun i => UInt8.ofBitVec (d.extractLsb' (8 * i) 8)

theorem Digest.bytes_inj {d e : Digest} (h : d.bytes = e.bytes) : d = e := by
  apply BitVec.eq_of_getLsbD_eq
  intro i hi
  have hb : ∀ j < 32, d.extractLsb' (8 * j) 8 = e.extractLsb' (8 * j) 8 := by
    intro j hj
    have := congrArg (fun l => l[j]?) h
    simpa [Digest.bytes, hj] using this
  have := congrArg (fun b => b.getLsbD (i % 8)) (hb (i / 8) (by omega))
  simpa [show i % 8 < 8 by omega, show 8 * (i / 8) + i % 8 = i by omega] using this

namespace PrePrepare

structure PrePrepareRep where
  view : Int
  seqno : Int
  digest : Digest
  rsetSize : Int
  nonDetSize : Int
  /-- `size()`. -/
  size : Int
  /-- The byte at an address relative to `requests()`. -/
  mem : Int → UInt8

/-- A request as read at an address. -/
structure RequestRep where
  tag : Int
  size : Int
  od : List UInt8
  commandSize : Int
  cid : List UInt8
  rid : List UInt8
  command : List UInt8
  /-- The bytes that `comp_digest` hashes: from `cid` on. -/
  body : List UInt8
deriving DecidableEq, Repr

/-- `len` bytes from address `a` on. -/
def read (m : PrePrepareRep) (a : Int) (len : Nat) : List UInt8 :=
  (List.range len).map fun i : Nat => m.mem (a + i)

/-- A little-endian, two's complement integer. -/
def signed (bs : List UInt8) : Int :=
  Int.bmod (bs.foldr (fun b acc => b.toNat + 256 * acc) 0 : Nat) (2 ^ (8 * bs.length))

def requestAt (m : PrePrepareRep) (a : Int) : RequestRep :=
  let commandSize := signed (read m (a + 42) 2)
  { tag := signed (read m a 2)
    size := signed (read m (a + 4) 4)
    od := read m (a + 8) 32
    commandSize
    cid := read m (a + 44) 4
    rid := read m (a + 48) 8
    command := read m (a + 56) commandSize.toNat
    body := read m (a + 44) (12 + commandSize).toNat }

/-- `Request_tag` is 1 and `sizeof(Request_rep)` 56. `Message(Message_rep *)` sets `max_size` to -1,
so nothing bounds the size of the request from above. -/
def convert (m : PrePrepareRep) (a : Int) (r : RequestRep) : Bool :=
  8 ≤ m.rsetSize - a && a % 8 == 0 && r.tag == 1 && 56 ≤ r.size && r.size % 8 == 0

/-- The requests of the set, if each converts and passes `check`. Every request that converts has at
least 56 bytes, so `fuel = rset_size` is enough. -/
def parse (check : RequestRep → Bool) (m : PrePrepareRep) : Nat → Int → Option (List RequestRep)
  | fuel, a =>
    if a < m.rsetSize then
      match fuel with
      | 0 => none
      | fuel + 1 =>
        let r := requestAt m a
        if convert m a r && check r then (parse check m fuel (a + r.size)).map (r :: ·) else none
    else some []

def requestsFrom (m : PrePrepareRep) : Nat → Int → List RequestRep
  | 0, _ => []
  | fuel + 1, a =>
    if a < m.rsetSize then
      let r := requestAt m a
      r :: requestsFrom m fuel (a + r.size)
    else []

/-- The requests that `Requests_iter` yields. -/
def requestsIter (m : PrePrepareRep) : List RequestRep := requestsFrom m m.rsetSize.toNat 0

/-- `choices()`. -/
def choices (m : PrePrepareRep) : List UInt8 := read m m.rsetSize m.nonDetSize.toNat

/-- The bytes that the digest of a batch is computed over. -/
def digestInput (rs : List RequestRep) (nonDet : List UInt8) : List UInt8 :=
  rs.flatMap (·.od) ++ nonDet

/-- What the verification of a message asks of the node that receives it. -/
structure Node where
  /-- `node->auth_size(primary(view()))`. -/
  authSize : Int
  /-- `node->i_to_p(cid)->sig_size()`; `none` is an unknown principal. -/
  sigSize : List UInt8 → Option Int
  verifySignature : RequestRep → Bool
  /-- `replica->has_req` (`Replica.cc:2275`): the client's first queued request has this digest. -/
  hasReq : List UInt8 → List UInt8 → Bool
  /-- `node->verify_auth_in(sender, …)`. -/
  verifyAuthIn : PrePrepareRep → Bool

inductive Mode
  | all
  | nac
  | nrc
deriving DecidableEq, Repr

variable (hash : List UInt8 → Digest) (N : Node)

def compDigest (r : RequestRep) : Digest := hash r.body

/-- The difference of the sizes is unsigned. -/
def verifyRequest (r : RequestRep) : Bool :=
  match N.sigSize r.cid with
  | none => false
  | some sigSize =>
    -12 ≤ r.commandSize && (compDigest hash r).bytes == r.od &&
      sigSize ≤ (r.size - (56 + r.commandSize)) % 2 ^ 64 && N.verifySignature r

/-- The checks that `verify` and `check_digest` share. -/
def digestOk (check : RequestRep → Bool) (m : PrePrepareRep) : Bool :=
  toInt (64 + m.rsetSize + m.nonDetSize + N.authSize) ≤ m.size &&
    match parse check m m.rsetSize.toNat 0 with
    | none => false
    | some rs =>
      m.rsetSize % 8 == 0 && 0 ≤ m.nonDetSize && hash (digestInput rs (choices m)) == m.digest

def checkDigest (m : PrePrepareRep) : Bool := digestOk hash N (fun _ => true) m

def verify (mode : Mode) (m : PrePrepareRep) : Bool :=
  digestOk hash N (fun r => mode == .nrc || verifyRequest hash N r || N.hasReq r.cid r.od) m &&
    (mode == .nac || N.verifyAuthIn m)

/-- A correct replica accepts `m`, into a prepared certificate or as a missing pre-prepare. -/
def Accepted (m : PrePrepareRep) : Prop :=
  (∃ mode, verify hash N mode m = true) ∨ checkDigest hash N m = true

/-- What the execution of a batch reads of a request. -/
def RequestRep.content (r : RequestRep) : List UInt8 × List UInt8 × Int × List UInt8 :=
  (r.cid, r.rid, r.commandSize, r.command)

/-- The two messages are the same batch for the replicas that execute them. -/
def SameBatch (m₁ m₂ : PrePrepareRep) : Prop :=
  (requestsIter m₁).map RequestRep.content = (requestsIter m₂).map RequestRep.content ∧
    choices m₁ = choices m₂

/-- The `od` field of the request is the digest of its own identifiers and command. -/
def RequestRep.Honest (r : RequestRep) : Prop :=
  0 ≤ r.commandSize ∧ (compDigest hash r).bytes = r.od

/-- The strings that are hashed for `m`. -/
def hashed (m : PrePrepareRep) : List (List UInt8) :=
  digestInput (requestsIter m) (choices m) :: (requestsIter m).map RequestRep.body

/-- No two of the strings hashed for the two messages collide. -/
def CollisionFree (m₁ m₂ : PrePrepareRep) : Prop :=
  ∀ x ∈ hashed m₁ ++ hashed m₂, ∀ y ∈ hashed m₁ ++ hashed m₂, hash x = hash y → x = y

/-! ## The request set -/

variable {hash} {N} {m m₁ m₂ : PrePrepareRep} {check : RequestRep → Bool}

theorem parse_of_ge {fuel : Nat} {a : Int} (h : m.rsetSize ≤ a) :
    parse check m fuel a = some [] := by
  unfold parse
  rw [if_neg (by omega)]

theorem parse_succ {fuel : Nat} {a : Int} (h : a < m.rsetSize) :
    parse check m (fuel + 1) a =
      if convert m a (requestAt m a) && check (requestAt m a) then
        (parse check m fuel (a + (requestAt m a).size)).map (requestAt m a :: ·)
      else none := by
  rw [parse, if_pos h]

/-- `fuel` never runs out: more than the bytes that are left changes nothing. -/
theorem parse_fuel {fuel : Nat} {a : Int} (h : (m.rsetSize - a).toNat ≤ fuel) :
    parse check m (fuel + 1) a = parse check m fuel a := by
  induction fuel generalizing a with
  | zero => rw [parse_of_ge (by omega), parse_of_ge (by omega)]
  | succ fuel ih =>
    by_cases ha : a < m.rsetSize
    · rw [parse_succ ha, parse_succ ha]
      split
      · rename_i hc
        have hsize : 56 ≤ (requestAt m a).size := by
          simp only [convert, Bool.and_eq_true, decide_eq_true_eq] at hc
          exact hc.1.1.2
        rw [ih (by omega)]
      · rfl
    · rw [parse_of_ge (by omega), parse_of_ge (by omega)]

/-- `Requests_iter` yields the requests that were checked. -/
theorem requestsFrom_of_parse {fuel : Nat} {a : Int} {rs : List RequestRep}
    (h : parse check m fuel a = some rs) :
    requestsFrom m fuel a = rs ∧ ∀ r ∈ rs, check r = true := by
  induction fuel generalizing a rs with
  | zero =>
    by_cases ha : a < m.rsetSize
    · simp [parse, ha] at h
    · rw [parse_of_ge (by omega)] at h
      obtain rfl := Option.some.inj h
      simp [requestsFrom]
  | succ fuel ih =>
    by_cases ha : a < m.rsetSize
    · rw [parse_succ ha] at h
      split at h
      · rename_i hc
        obtain ⟨rs', hrs', rfl⟩ := Option.map_eq_some_iff.1 h
        obtain ⟨h1, h2⟩ := ih hrs'
        refine ⟨by simp [requestsFrom, ha, h1], fun r hr => ?_⟩
        rcases List.mem_cons.1 hr with rfl | hr
        · exact (Bool.and_eq_true _ _ ▸ hc).2
        · exact h2 r hr
      · cases h
    · rw [parse_of_ge (by omega)] at h
      obtain rfl := Option.some.inj h
      simp [requestsFrom, ha]

theorem digestOk_spec (h : digestOk hash N check m = true) :
    hash (digestInput (requestsIter m) (choices m)) = m.digest ∧ ∀ r ∈ requestsIter m,
      check r = true := by
  simp only [digestOk, Bool.and_eq_true] at h
  obtain ⟨-, h⟩ := h
  split at h
  · cases h
  · rename_i rs hrs
    obtain ⟨h1, h2⟩ := requestsFrom_of_parse hrs
    simp only [Bool.and_eq_true, beq_iff_eq] at h
    rw [requestsIter, h1]
    exact ⟨h.2, h2⟩

theorem Accepted.digest_eq (h : Accepted hash N m) :
    hash (digestInput (requestsIter m) (choices m)) = m.digest := by
  rcases h with ⟨mode, h⟩ | h
  · simp only [verify, Bool.and_eq_true] at h
    exact (digestOk_spec h.1).1
  · exact (digestOk_spec h).1

/-! ## The encoding -/

theorem length_read (a : Int) (len : Nat) : (read m a len).length = len := by simp [read]

theorem read_append (a : Int) (i j : Nat) : read m a (i + j) = read m a i ++ read m (a + i) j := by
  simp only [read, List.range_add, List.map_append, List.map_map]
  congr 1
  apply List.map_congr_left
  intro k _
  simp only [Function.comp]
  congr 1
  push_cast
  omega

/-- A request with a command is its client id, its request id and its command. -/
theorem requestAt_body {a : Int} (h : 0 ≤ (requestAt m a).commandSize) :
    (requestAt m a).body = (requestAt m a).cid ++
      ((requestAt m a).rid ++ (requestAt m a).command) := by
  simp only [requestAt] at h ⊢
  rw [show (12 + signed (read m (a + 42) 2)).toNat = 4 +
    (8 + (signed (read m (a + 42) 2)).toNat) by omega,
    read_append, read_append]
  congr 2
  · congr 1
    omega
  · congr 1
    push_cast
    omega

theorem mem_requestsFrom {fuel : Nat} {a : Int} {r : RequestRep} (h : r ∈ requestsFrom m fuel a) :
    ∃ b, r = requestAt m b := by
  induction fuel generalizing a with
  | zero => simp [requestsFrom] at h
  | succ fuel ih =>
    simp only [requestsFrom] at h
    split at h
    · rcases List.mem_cons.1 h with rfl | h
      · exact ⟨a, rfl⟩
      · exact ih h
    · cases h

/-- `od` fields have a fixed length, so for equally many requests the input of the digest determines
them and the choices. -/
theorem digestInput_inj {rs₁ rs₂ : List RequestRep} {c₁ c₂ : List UInt8}
    (h₁ : ∀ r ∈ rs₁, r.od.length = 32) (h₂ : ∀ r ∈ rs₂, r.od.length = 32)
    (hlen : rs₁.length = rs₂.length) (h : digestInput rs₁ c₁ = digestInput rs₂ c₂) :
    rs₁.map RequestRep.od = rs₂.map RequestRep.od ∧ c₁ = c₂ := by
  induction rs₁ generalizing rs₂ with
  | nil =>
    obtain rfl : rs₂ = [] := List.length_eq_zero_iff.1 hlen.symm
    exact ⟨rfl, by simpa [digestInput] using h⟩
  | cons r₁ rs₁ ih =>
    cases rs₂ with
    | nil => simp at hlen
    | cons r₂ rs₂ =>
      simp only [digestInput, List.flatMap_cons, List.append_assoc] at h
      have hod := List.append_inj h (by rw [h₁ r₁ (by simp), h₂ r₂ (by simp)])
      obtain ⟨h3, h4⟩ := ih (fun r hr => h₁ r (by simp [hr]))
        (fun r hr => h₂ r (by simp [hr])) (by simpa using hlen) hod.2
      exact ⟨by simp [hod.1, h3], h4⟩

/-- Two requests with the same content hash the same bytes. -/
theorem body_of_content {r₁ r₂ : RequestRep} (h₁ : r₁ ∈ requestsIter m₁) (h₂ : r₂ ∈ requestsIter m₂)
    (hcs : 0 ≤ r₁.commandSize) (h : r₁.content = r₂.content) : r₁.body = r₂.body := by
  obtain ⟨a, rfl⟩ := mem_requestsFrom h₁
  obtain ⟨b, rfl⟩ := mem_requestsFrom h₂
  simp only [RequestRep.content, Prod.mk.injEq] at h
  obtain ⟨hcid, hrid, hsize, hcmd⟩ := h
  rw [requestAt_body hcs, requestAt_body (by omega), hcid, hrid, hcmd]

/-- Two requests with a command that hash the same bytes have the same content. -/
theorem content_of_body {r₁ r₂ : RequestRep} (h₁ : r₁ ∈ requestsIter m₁) (h₂ : r₂ ∈ requestsIter m₂)
    (hcs₁ : 0 ≤ r₁.commandSize) (hcs₂ : 0 ≤ r₂.commandSize) (h : r₁.body = r₂.body) :
    r₁.content = r₂.content := by
  obtain ⟨a, rfl⟩ := mem_requestsFrom h₁
  obtain ⟨b, rfl⟩ := mem_requestsFrom h₂
  rw [requestAt_body hcs₁, requestAt_body hcs₂] at h
  obtain ⟨hcid, h⟩ := List.append_inj h (by simp [requestAt, length_read])
  obtain ⟨hrid, hcmd⟩ := List.append_inj h (by simp [requestAt, length_read])
  have hsize : (requestAt m₁ a).commandSize = (requestAt m₂ b).commandSize := by
    have := congrArg List.length hcmd
    simp only [requestAt, length_read] at this hcs₁ hcs₂ ⊢
    omega
  simp only [RequestRep.content, Prod.mk.injEq]
  exact ⟨hcid, hrid, hsize, hcmd⟩

theorem length_od {r : RequestRep} (h : r ∈ requestsIter m) : r.od.length = 32 := by
  obtain ⟨a, rfl⟩ := mem_requestsFrom h
  simp [requestAt, length_read]

/-- **When equal digests mean equal batches.** Let a correct replica accept two messages with equal
digests, by whatever check, and let nothing collide. If the requests of the first carry the digests
of their own bodies, the messages are the same batch exactly when those of the second do too and
there are equally many of them. -/
theorem digest_binds_batch {N₁ N₂ : Node} (h₁ : Accepted hash N₁ m₁) (h₂ : Accepted hash N₂ m₂)
    (hd : m₁.digest = m₂.digest) (hcf : CollisionFree hash m₁ m₂)
    (hon : ∀ r ∈ requestsIter m₁, r.Honest hash) :
    SameBatch m₁ m₂ ↔
      (∀ r ∈ requestsIter m₂, r.Honest hash) ∧
        (requestsIter m₁).length = (requestsIter m₂).length := by
  have hinput : digestInput (requestsIter m₁) (choices m₁) =
    digestInput (requestsIter m₂) (choices m₂) :=
    hcf _ (by simp [hashed]) _ (by simp [hashed]) (by rw [h₁.digest_eq, h₂.digest_eq, hd])
  -- request by request, the fields are equal as soon as there are equally many of them
  have hods : (requestsIter m₁).length = (requestsIter m₂).length →
      (requestsIter m₁).map RequestRep.od = (requestsIter m₂).map RequestRep.od ∧
        choices m₁ = choices m₂ :=
    fun hlen => digestInput_inj (fun r hr => length_od hr) (fun r hr => length_od hr) hlen hinput
  constructor
  · rintro ⟨hreqs, -⟩
    have hlen : (requestsIter m₁).length = (requestsIter m₂).length := by
      simpa using congrArg List.length hreqs
    refine ⟨fun r₂ hr₂ => ?_, hlen⟩
    obtain ⟨i, hi, rfl⟩ := List.mem_iff_getElem.1 hr₂
    have hmem : (requestsIter m₁)[i] ∈ requestsIter m₁ := List.getElem_mem (by omega)
    obtain ⟨hcs, hcd⟩ := hon _ hmem
    have hcontent : (requestsIter m₁)[i].content = (requestsIter m₂)[i].content := by
      have := List.getElem_of_eq hreqs (i := i) (by simpa using by omega)
      simpa using this
    have hod : (requestsIter m₁)[i].od = (requestsIter m₂)[i].od := by
      have := List.getElem_of_eq (hods hlen).1 (i := i) (by simpa using by omega)
      simpa using this
    refine ⟨?_, ?_⟩
    · have : (requestsIter m₁)[i].commandSize = (requestsIter m₂)[i].commandSize :=
        congrArg (fun c => c.2.2.1) hcontent
      omega
    · rw [← hod, ← hcd, compDigest, compDigest, body_of_content hmem hr₂ hcs hcontent]
  · rintro ⟨hon₂, hlen⟩
    obtain ⟨hod, hch⟩ := hods hlen
    refine ⟨?_, hch⟩
    apply List.ext_getElem
    · simpa using hlen
    · intro i hi₁ hi₂
      simp only [List.length_map] at hi₁ hi₂
      have hr₁ : (requestsIter m₁)[i] ∈ requestsIter m₁ := List.getElem_mem hi₁
      have hr₂ : (requestsIter m₂)[i] ∈ requestsIter m₂ := List.getElem_mem hi₂
      obtain ⟨hcs₁, hcd₁⟩ := hon _ hr₁
      obtain ⟨hcs₂, hcd₂⟩ := hon₂ _ hr₂
      have hodi : (requestsIter m₁)[i].od = (requestsIter m₂)[i].od := by
        have := List.getElem_of_eq hod (i := i) (by simpa using hi₁)
        simpa using this
      have hbody : (requestsIter m₁)[i].body = (requestsIter m₂)[i].body := by
        apply hcf
        · exact List.mem_append_left _ (List.mem_cons_of_mem _ (List.mem_map_of_mem hr₁))
        · exact List.mem_append_right _ (List.mem_cons_of_mem _ (List.mem_map_of_mem hr₂))
        · exact Digest.bytes_inj (hcd₁.trans (hodi.trans hcd₂.symm))
      simpa using content_of_body hr₁ hr₂ hcs₁ hcs₂ hbody

instance : Decidable (SameBatch m₁ m₂) := inferInstanceAs (Decidable (_ ∧ _))

instance (r : RequestRep) : Decidable (r.Honest hash) := inferInstanceAs (Decidable (_ ∧ _))

instance : Decidable (CollisionFree hash m₁ m₂) :=
  inferInstanceAs (Decidable (∀ x ∈ hashed m₁ ++ hashed m₂,
    ∀ y ∈ hashed m₁ ++ hashed m₂, hash x = hash y → x = y))

/-- Client 5's request 1 with a command of one byte, as it lies in memory before the 264 bytes of
its signature. -/
def oneByteRequest (od : Digest) (command : UInt8) : List UInt8 :=
  [1, 0, 0, 0, 72, 1, 0, 0] ++ od.bytes ++ [255, 255, 1,
    0, 5, 0, 0, 0, 1, 0, 0, 0, 0, 0, 0, 0, command]

/-- SHA-256 on the bodies of the requests with commands `0xaa` and `0xbb`, and on the digest of the
former. -/
def sha256Sample (bs : List UInt8) : Digest :=
  if bs = [5, 0, 0, 0, 1, 0, 0, 0, 0, 0, 0, 0, 0xaa] then
    0x3736d3fddd11aa0b41c30b8ecb96eb54ec63144e398d7e7367eced1a45144d3a
  else if bs = [5, 0, 0, 0, 1, 0, 0, 0, 0, 0, 0, 0, 0xbb] then
    0x24d31cee1f7c38bc1103cd8ece4153e0bceceb17aa4ec02f1472a0684f509deb
  else 0xe65203596f563b9287a647ac98632a0b12c1fef1f1bc13874892e9311bbae0aa

/-- A pre-prepare of one request, whose `od` is the digest of the request with command `0xaa`. -/
def samplePrePrepare (view : Int) (command : UInt8) : PrePrepareRep where
  view := view
  seqno := 1
  digest := 0xe65203596f563b9287a647ac98632a0b12c1fef1f1bc13874892e9311bbae0aa
  rsetSize := 328
  nonDetSize := 0
  size := 488
  mem a := (oneByteRequest 0x3736d3fddd11aa0b41c30b8ecb96eb54ec63144e398d7e7367eced1a45144d3a
    command).getD a.toNat 0

/-- One of four replicas, with keys of 2048 bits, to which the signatures and authenticators look
right. -/
def sampleNode : Node := ⟨96, fun _ => some 264, fun _ => true, fun _ _ => false, fun _ => true⟩

/-- The same batch, proposed in view 0 and again, without a check of the requests, in view 1. -/
theorem digest_binds_batch_reproposed :
    SameBatch (samplePrePrepare 0 0xaa) (samplePrePrepare 1 0xaa) := by
  have h₁ : Accepted sha256Sample sampleNode (samplePrePrepare 0 0xaa) :=
    .inl ⟨.all, by decide +kernel⟩
  have h₂ : Accepted sha256Sample sampleNode (samplePrePrepare 1 0xaa) :=
    .inl ⟨.nrc, by decide +kernel⟩
  have hd : (samplePrePrepare 0 0xaa).digest = (samplePrePrepare 1 0xaa).digest := by decide +kernel
  have hcf : CollisionFree sha256Sample (samplePrePrepare 0 0xaa) (samplePrePrepare 1 0xaa) := by
    decide +kernel
  have hon₁ : ∀ r ∈ requestsIter (samplePrePrepare 0 0xaa), r.Honest sha256Sample := by
    decide +kernel
  have hon₂ : ∀ r ∈ requestsIter (samplePrePrepare 1 0xaa), r.Honest sha256Sample := by
    decide +kernel
  have hlen : (requestsIter (samplePrePrepare 0 0xaa)).length =
    (requestsIter (samplePrePrepare 1 0xaa)).length := by
    decide +kernel
  exact (digest_binds_batch h₁ h₂ hd hcf hon₁).2 ⟨hon₂, hlen⟩

/-- **Equal digests, different commands.** The second message is accepted without a check of the
requests (`NRC`, as a backup does whose certificate has `f` matching prepares): the `od` field of
its request is that of another command. -/
theorem digest_does_not_bind_command :
    verify sha256Sample sampleNode .all (samplePrePrepare 0 0xaa) = true ∧
    verify sha256Sample sampleNode .nrc (samplePrePrepare 0 0xbb) = true ∧
    (samplePrePrepare 0 0xaa).digest = (samplePrePrepare 0 0xbb).digest ∧
    CollisionFree sha256Sample (samplePrePrepare 0 0xaa) (samplePrePrepare 0 0xbb) ∧
    ¬ SameBatch (samplePrePrepare 0 0xaa) (samplePrePrepare 0 0xbb) := by
  decide +kernel

end PrePrepare

end TinyBFT
