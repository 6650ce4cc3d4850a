import TinyBFT.Principal

/-!
# The check of a request (`Request.cc`, `Request.h`)

| here | there |
| --- | --- |
| `clientId`, `commandSize`, `od` | fields of `Request_rep` (`Request.h:25-34`), 56 bytes |
| `Request.compDigest` | `comp_digest` (`Request.cc:50-58`) |
| `Request.verify`     | `verify` (`Request.cc:75-88`) |
| `Request.InBounds`   | what the caller may expect of a call: what is accepted, and what is read |

`command_size` is a `short` that the sender chooses. `verify` hashes the command before it looks at
`size()`, and then subtracts the sizes without a sign: a request that is shorter than its header and
command says passes for a very long one (`verify_inBounds_iff`).
-/

namespace TinyBFT

namespace Request

open Reads Wire

section Fields

variable (mem : Memory)

def clientId : Int := int mem 44

def commandSize : Int := short mem 42

def od : List UInt8 := mem.slice 8 32

/-- The bytes that `comp_digest` hashes: their number is a `size_t`. -/
def bodySize : Nat := unsigned64 (12 + commandSize mem)

def body : List UInt8 := mem.slice 44 (bodySize mem)

/-- `size() - old_size`. -/
def rest : Nat := unsigned64 (size mem - (56 + commandSize mem))

end Fields

variable (hash : List UInt8 → Digest) (N : Node)

def compDigest : Reads Digest := do
  let cs ← bytes 42 2
  let b ← bytes 44 (unsigned64 (12 + Bytes.toInt cs))
  pure (hash b)

/-- The rest of `verify`, for the client `cid` with `old_size - sizeof(Request_rep) = cs`. -/
def verifyClient (cid cs : Int) (d : Digest) : Option Principal → Reads Bool
  | none => pure false
  | some p => do
    let od ← bytes 8 32
    if d.bytes = od then do
      let sz ← bytes 4 4
      if p.sigSize ≤ unsigned64 (Bytes.toInt sz - (56 + cs)) then
        N.verifySignature hash cid p 0 56 (56 + cs) true
      else pure false
    else pure false

def verify : Reads Bool := do
  let cid ← bytes 44 4
  let cs ← bytes 42 2
  let d ← compDigest hash
  verifyClient hash N (Bytes.toInt cid) (Bytes.toInt cs) d (N.iToP (Bytes.toInt cid))

variable (mem : Memory)

/-- The principal that the request names as its client. -/
def client : Option Principal := N.iToP (clientId mem)

/-- The digest in the header is that of the body. -/
def DigestOk : Prop := (hash (body mem)).bytes = od mem

instance : Decidable (DigestOk hash mem) := inferInstanceAs (Decidable (_ = _))

/-- The bytes behind the command are a signature of the header. -/
def signatureOk (p : Principal) : Bool :=
  (p.verifySignature hash 0 56 (56 + commandSize mem)).run mem

/-- **What a call of `verify` should do**, whatever its result: read the message only, and accept a
request only if it has room for its header, its command and the signature of its client. -/
structure InBounds : Prop where
  accepted : (verify hash N).run mem = true →
    0 ≤ commandSize mem ∧ ∀ p, client N mem = some p → 56 + commandSize mem + p.sigSize ≤ size mem
  reads : (verify hash N).Within mem 0 (size mem)

/-- The command lies in the message. -/
def CommandInside : Prop := 0 ≤ commandSize mem ∧ 56 + commandSize mem ≤ size mem

instance : Decidable (CommandInside mem) := inferInstanceAs (Decidable (_ ∧ _))

/-- The size of the command is negative, but not so that the number of bytes to be hashed is; and
the client has not signed this. -/
def NegativeUnsigned : Prop :=
  -12 ≤ commandSize mem ∧ commandSize mem < 0 ∧
    ∀ p, client N mem = some p → DigestOk hash mem → p.sigSize ≤ rest mem →
      signatureOk hash mem p = false

variable {hash N mem}

/-! ## One call -/

theorem verifySignature_self (i : Int) (p : Principal) (src : Int) (len : Nat) (sig : Int) :
    N.verifySignature hash i p src len sig true = p.verifySignature hash src len sig :=
  if_neg (by simp)

theorem run_compDigest : (compDigest hash).run mem = hash (body mem) := by
  unfold compDigest
  rw [run_bytes_bind, run_bytes_bind, run_pure]
  rfl

theorem within_compDigest {lo hi : Int} (h : lo ≤ 42 ∧ 44 ≤ hi) :
    (compDigest hash).Within mem lo hi ↔
      (0 < bodySize mem → lo ≤ 44 ∧ 44 + (bodySize mem : Int) ≤ hi) := by
  unfold compDigest
  rw [within_bytes_bind, within_bytes_bind]
  simp only [within_pure, and_true]
  exact ⟨fun hb => hb.2, fun hb => ⟨fun _ => by omega, hb⟩⟩

/-- A call, once it knows the client and the digest of the command. -/
theorem run_verify_eq : (verify hash N).run mem =
    (verifyClient hash N (clientId mem) (commandSize mem)
        (hash (body mem)) (client N mem)).run mem := by
  unfold verify
  rw [run_bytes_bind, run_bytes_bind, run_bind, run_compDigest]
  rfl

theorem run_verify : (verify hash N).run mem = true ↔
    ∃ p, client N mem = some p ∧ DigestOk hash mem ∧ p.sigSize ≤ rest mem ∧
      signatureOk hash mem p = true := by
  rw [run_verify_eq]
  cases client N mem with
  | none => simp [verifyClient]
  | some p =>
    simp only [verifyClient, run_bytes_bind, Option.some.injEq,
      exists_eq_left', verifySignature_self]
    by_cases hd : DigestOk hash mem
    · rw [if_pos (show (hash (body mem)).bytes = mem.slice 8 32 from hd), run_bytes_bind]
      by_cases hs : p.sigSize ≤ rest mem
      · rw [if_pos (show p.sigSize ≤
          unsigned64 (Bytes.toInt (mem.slice 4 4) - (56 + commandSize mem)) from hs)]
        exact ⟨fun h => ⟨hd, hs, h⟩, fun h => h.2.2⟩
      · rw [if_neg (show ¬ p.sigSize ≤
          unsigned64 (Bytes.toInt (mem.slice 4 4) - (56 + commandSize mem)) from hs)]
        exact ⟨fun h => absurd h Bool.false_ne_true, fun h => absurd h.2.1 hs⟩
    · rw [if_neg (show ¬ (hash (body mem)).bytes = mem.slice 8 32 from hd)]
      exact ⟨fun h => absurd h Bool.false_ne_true, fun h => absurd h.1 hd⟩

/-- The command is hashed first, and the signature is read where the code takes it to be in the
message. -/
theorem within_verify (hsize : 56 ≤ size mem) : (verify hash N).Within mem 0 (size mem) ↔
    (0 < bodySize mem → 44 + (bodySize mem : Int) ≤ size mem) ∧
      ∀ p, client N mem = some p → DigestOk hash mem → p.sigSize ≤ rest mem →
        (p.verifySignature hash 0 56 (56 + commandSize mem)).Within mem 0 (size mem) := by
  have hc : (verify hash N).Within mem 0 (size mem) ↔
    (0 < bodySize mem → 44 + (bodySize mem : Int) ≤ size mem) ∧
      (verifyClient hash N (clientId mem) (commandSize mem) (hash (body mem)) (client N mem)).Within
        mem 0 (size mem) := by
    unfold verify
    rw [within_bytes_bind, within_bytes_bind, within_bind,
      run_compDigest, within_compDigest (by omega)]
    constructor
    · rintro ⟨-, -, h1, h2⟩
      exact ⟨fun hb => (h1 hb).2, h2⟩
    · rintro ⟨h1, h2⟩
      exact ⟨fun _ => by omega, fun _ => by omega, fun hb => ⟨by omega, h1 hb⟩, h2⟩
  rw [hc]
  refine and_congr_right fun _ => ?_
  cases client N mem with
  | none => simp [verifyClient]
  | some p =>
    simp only [verifyClient, within_bytes_bind, Option.some.injEq, forall_eq', verifySignature_self]
    by_cases hd : DigestOk hash mem
    · rw [if_pos (show (hash (body mem)).bytes = mem.slice 8 32 from hd), within_bytes_bind]
      by_cases hs : p.sigSize ≤ rest mem
      · rw [if_pos (show p.sigSize ≤
          unsigned64 (Bytes.toInt (mem.slice 4 4) - (56 + commandSize mem)) from hs)]
        exact ⟨fun h _ _ => h.2.2, fun h => ⟨fun _ => by omega, fun _ => by omega, h hd hs⟩⟩
      · rw [if_neg (show ¬ p.sigSize ≤
          unsigned64 (Bytes.toInt (mem.slice 4 4) - (56 + commandSize mem)) from hs)]
        exact ⟨fun _ _ h => absurd h hs, fun _ =>
          ⟨fun _ => by omega, fun _ => by omega, within_pure⟩⟩
    · rw [if_neg (show ¬ (hash (body mem)).bytes = mem.slice 8 32 from hd)]
      exact ⟨fun _ h => absurd h hd, fun _ => ⟨fun _ => by omega, within_pure⟩⟩

theorem bodySize_eq (h : -12 ≤ commandSize mem) : (bodySize mem : Int) = 12 + commandSize mem := by
  have hb := @short_bounds mem 42
  have : commandSize mem = short mem 42 := rfl
  exact unsigned64_of_nonneg (by omega) (by omega)

/-- With a command that lies in the message the sizes are what they seem. -/
theorem rest_eq (h : 56 + commandSize mem ≤ size mem) :
    (rest mem : Int) = size mem - (56 + commandSize mem) := by
  have hb := @short_bounds mem 42
  have hs := @int_bounds mem 4
  have h1 : commandSize mem = short mem 42 := rfl
  have h2 : size mem = int mem 4 := rfl
  exact unsigned64_of_nonneg (by omega) (by omega)

/-- Where the header ends before the end of the message, the signature is read inside it. -/
theorem signature_within {p : Principal} (hsize : 56 ≤ size mem) (h0 : -12 ≤ commandSize mem)
    (h : 56 + commandSize mem ≤ size mem) (hp : p.sigSize ≤ rest mem) :
    (p.verifySignature hash 0 56 (56 + commandSize mem)).Within mem 0 (size mem) := by
  have hr := rest_eq h
  exact Principal.verifySignature_within (by omega) (by omega)

theorem inBounds_of_inside (hsize : 56 ≤ size mem) (h : CommandInside mem) :
    InBounds hash N mem := by
  obtain ⟨h0, hle⟩ := h
  constructor
  · intro hacc
    obtain ⟨p, hp, -, hfits, -⟩ := run_verify.1 hacc
    have hr := rest_eq hle
    refine ⟨h0, fun q hq => ?_⟩
    obtain rfl : p = q := Option.some.inj (hp.symm.trans hq)
    omega
  · have hb := @bodySize_eq mem (by omega)
    exact (within_verify hsize).2 ⟨fun _ => by omega,
      fun p _ _ hfits => signature_within hsize (by omega) hle hfits⟩

theorem inBounds_of_negative (hsize : 56 ≤ size mem) (h : NegativeUnsigned hash N mem) :
    InBounds hash N mem := by
  obtain ⟨h12, h0, hno⟩ := h
  constructor
  · intro hacc
    obtain ⟨p, hp, hd, hfits, hsig⟩ := run_verify.1 hacc
    rw [hno p hp hd hfits] at hsig
    cases hsig
  · have hb := @bodySize_eq mem h12
    exact (within_verify hsize).2 ⟨fun _ => by omega,
      fun p _ _ hfits => signature_within hsize h12 (by omega) hfits⟩

/-- A request that lies in the message with its command is verified in the same way wherever the
message is. -/
theorem verify_eq_of_inside {mem' : Memory} (hsize : 56 ≤ size mem) (h : CommandInside mem)
    (heq : ∀ x, 0 ≤ x → x < size mem → mem x = mem' x) :
    (verify hash N).run mem = (verify hash N).run mem' :=
  (run_congr (inBounds_of_inside hsize h).reads heq).1

/-- Who verifies a request does not matter, only the keys. -/
theorem verify_eq_of_keys {N' : Node} (hnum : N'.numPrincipals = N.numPrincipals)
    (hkeys : ∀ i, (N'.principals i).pkey = (N.principals i).pkey) :
    (verify hash N').run mem = (verify hash N).run mem := by
  have hsig : ∀ p p' : Principal, p'.pkey = p.pkey →
    p'.sigSize = p.sigSize ∧ signatureOk hash mem p' = signatureOk hash mem p := by
    intro p p' hp
    unfold signatureOk Principal.verifySignature Principal.sigSize
    rw [hp]
    exact ⟨rfl, rfl⟩
  have hiff : (verify hash N').run mem = true ↔ (verify hash N).run mem = true := by
    rw [run_verify, run_verify]
    unfold client Node.iToP
    rw [hnum]
    split
    · obtain ⟨h1, h2⟩ := hsig _ _ (hkeys (clientId mem).toNat)
      simp [h1, h2]
    · simp
  exact Bool.eq_iff_iff.2 hiff

/-- **`Request::verify`** keeps to the message, and accepts only what has room for its parts,
exactly when the command lies in the message or its size is one of -12, ..., -1 and the client has
not signed such a header. -/
theorem verify_inBounds_iff {P : Params} (h : Received mem P 1 56) :
    InBounds hash N mem ↔ CommandInside mem ∨ NegativeUnsigned hash N mem := by
  obtain ⟨-, hsize, -, -⟩ := h.spec
  refine ⟨fun hb => ?_, fun hc => hc.elim (inBounds_of_inside hsize) (inBounds_of_negative hsize)⟩
  obtain ⟨hhash, -⟩ := (within_verify hsize).1 hb.reads
  have hcs := @short_bounds mem 42
  have hcs' : commandSize mem = short mem 42 := rfl
  have hs := @int_bounds mem 4
  have hs' : size mem = int mem 4 := rfl
  by_cases h12 : -12 ≤ commandSize mem
  · have hbody := bodySize_eq h12
    by_cases h0 : 0 ≤ commandSize mem
    · exact .inl ⟨h0, by have := hhash (by omega); omega⟩
    · refine .inr ⟨h12, by omega, fun p hp hd hfits => ?_⟩
      by_contra hsig
      have hacc := run_verify.2 ⟨p, hp, hd, hfits, by simpa using hsig⟩
      exact h0 (hb.accepted hacc).1
  · -- the number of bytes to be hashed wraps
    have hbody : (bodySize mem : Int) = 12 + commandSize mem + 2 ^ 64 :=
      unsigned64_of_neg (by omega) (by omega)
    have := hhash (by omega)
    omega

/-- The header of a request of principal 0 with a command of eight bytes, and then the length of a
signature. -/
def eightBytes (size : UInt8 × UInt8) : Memory := Memory.ofBytes
  ([1, 0, 0, 0, size.1, size.2, 0, 0] ++ List.replicate 32 0 ++
    [255, 255, 8, 0, 0, 0, 0, 0, 1, 0, 0, 0, 0, 0, 0, 0] ++
    [1, 2, 3, 4, 5, 6, 7, 8] ++ [0, 1, 0, 0]) fun _ => 0

/-- One principal with a key of 2048 bits, by which all is signed. -/
def onePrincipal : Node where
  P := .default
  id := 0
  numReplicas := 1
  numPrincipals := 1
  principals _ := ⟨⟨256, PublicKey.rsa2048_le, fun _ _ => true, fun _ _ => none⟩, none, [], 0⟩
  v := 0
  curPrimary := 0
  replicas_pos := by decide
  replicas_le := by decide

theorem eightBytes_inBounds : InBounds (fun _ => 0) onePrincipal (eightBytes (72, 1)) :=
  (verify_inBounds_iff (P := .default) (by decide)).2 (.inl (by decide))

/-- **A request shorter than it says**: its size is that of the header, the command and the
signature are behind it in the datagram. It is accepted, and its digest and its signature are those
of bytes that are not in the message. -/
theorem headerOnly_accepted : Received (eightBytes (56, 0)) .default 1 56 ∧
    (verify (fun _ => 0) onePrincipal).run (eightBytes (56, 0)) = true ∧
    ¬ InBounds (fun _ => 0) onePrincipal (eightBytes (56, 0)) := by
  refine ⟨by decide, by decide +kernel, fun h => ?_⟩
  exact absurd h.reads (by decide +kernel)

end Request

end TinyBFT
