import TinyBFT.PrePrepare
import TinyBFT.Wire

/-!
# Principals, signatures, authenticators (`Principal.cc`, `Node.cc`, `rsa_public_key.cc`, `hmac.cc`)

| here | there |
| --- | --- |
| `PublicKey`       | `RsaPublicKey`; `size` is `mbedtls_rsa_get_len`, at most `MBEDTLS_MPI_MAX_SIZE` |
| `PublicKey.verify` | `mbedtls_rsa_pkcs1_verify` |
| `encrypt`         | `mbedtls_rsa_pkcs1_encrypt`, with the random numbers that it draws; `none` is an error |
| `Principal`       | `Principal`: `kin` is `hmac_in`, `none` while it has no key, `kout` is `hmac_out` |
| `sigSize`         | `ssize` (`Principal.cc:27`), a multiple of 8 |
| `verifySignature` | `verify_signature` (`Principal.cc:79-103`) and `RsaPublicKey::verify` (`rsa_public_key.cc:52-67`) |
| `Hmac.equal`      | `Hmac::equal` (`hmac.cc:7-14`) where `char` is signed |
| `verifyMac`, `genMac` | `Principal.cc:49-67` |
| `Node`            | what `Node` has of the principals, its view and primary (`Node.h:145-182`) |
| `genAuth`, `verifyAuth` | `gen_auth`, `verify_auth` (`Node.cc:319-369`): the bytes written, and what is read |
| `authSize`        | `auth_size` (`Node.h:229-232`) |

SHA-256 is the parameter `hash` and HMAC with it `hmac`, both of mbedtls. What reads a message is a
program (`Reads`); addresses are relative to `contents()`.
-/

namespace TinyBFT

open Reads

structure PublicKey where
  size : Nat
  size_le : size ≤ 1024
  verify : Digest → List UInt8 → Bool
  encrypt : Nat → List UInt8 → Option (List UInt8)

structure Principal where
  pkey : PublicKey
  kin : Option (List UInt8)
  kout : List UInt8
  tstamp : Nat

def Principal.sigSize (p : Principal) : Nat := alignedSize (p.pkey.size + 4)

theorem Principal.le_sigSize (p : Principal) : p.pkey.size + 4 ≤ p.sigSize := le_alignedSize _

/-- The principals as one of them sees them; the first `numReplicas` are the replicas. -/
structure Node where
  P : Params
  id : Nat
  numReplicas : Nat
  numPrincipals : Nat
  principals : Nat → Principal
  v : Int
  curPrimary : Int
  /-- `num_replicas = 3 * max_faulty + 1`, and the constructor stops at too many
  (`Node.cc:84-85`). -/
  replicas_pos : 0 < numReplicas
  replicas_le : numReplicas ≤ P.maxNumReplicas

/-- A key of 2048 bits is not too long. -/
theorem PublicKey.rsa2048_le : 256 ≤ 1024 := by decide

/-- The default build has room for four replicas. -/
theorem Node.four_le : 4 ≤ Params.default.maxNumReplicas := by decide

theorem Node.four_pos : 0 < 4 := by decide

def Node.isReplica (N : Node) (i : Int) : Bool := decide (0 ≤ i ∧ i < N.numReplicas)

def Node.primary (N : Node) (vi : Int) : Int :=
  if vi = N.v then N.curPrimary else Int.tmod vi N.numReplicas

def Node.iToP (N : Node) (i : Int) : Option Principal :=
  if 0 ≤ i ∧ i < N.numPrincipals then some (N.principals i.toNat) else none

def Node.authSize (N : Node) (i : Int) : Nat :=
  let i := if i < 0 then (N.id : Int) else i
  (if i < N.numReplicas then N.numReplicas - 1 else N.numReplicas) * 32

/-! ## Signatures -/

variable (hash : List UInt8 → Digest)

/-- `RsaPublicKey::verify`. -/
def PublicKey.verifySig (k : PublicKey) (msg : Int) (msgLen : Nat) (sig : Int)
    (sigLen : Nat) : Reads Bool :=
  if sigLen < k.size then pure false
  else do
    let m ← bytes msg msgLen
    let s ← bytes sig k.size
    pure (k.verify (hash m) s)

/-- A signature is its length in four bytes and the signature itself. -/
def Principal.verifySignature (p : Principal) (src : Int) (srcLen : Nat) (sig : Int) :
    Reads Bool := do
  let len ← bytes sig 4
  if p.sigSize < Bytes.toNat len + 4 then pure false
  else p.pkey.verifySig hash src srcLen (sig + 4) (Bytes.toNat len)

/-- A principal does not verify its own signature unless it is told to. -/
def Node.verifySignature (N : Node) (i : Int) (p : Principal) (src : Int) (srcLen : Nat) (sig : Int)
    (allowSelf : Bool) : Reads Bool :=
  if i = N.id ∧ allowSelf = false then pure false else p.verifySignature hash src srcLen sig

variable {hash} {p : Principal} {mem : Memory} {lo hi src sig : Int} {srcLen : Nat}

/-- A signature is read inside the `sig_size()` bytes that it may take. -/
theorem Principal.verifySignature_within (hsrc : lo ≤ src ∧ src + srcLen ≤ hi)
    (hsig : lo ≤ sig ∧ sig + p.sigSize ≤ hi) :
    Within mem lo hi (p.verifySignature hash src srcLen sig) := by
  have hp := p.le_sigSize
  unfold Principal.verifySignature PublicKey.verifySig
  simp only [within_bytes_bind, within_ite, within_pure, implies_true, true_and, and_true]
  exact ⟨fun _ => by omega, fun _ _ => ⟨fun _ => hsrc, fun _ => by omega⟩⟩

theorem Node.verifySignature_within {N : Node} {i : Int} {allowSelf : Bool}
    (hsrc : lo ≤ src ∧ src + srcLen ≤ hi) (hsig : lo ≤ sig ∧ sig + p.sigSize ≤ hi) :
    Within mem lo hi (N.verifySignature hash i p src srcLen sig allowSelf) := by
  unfold Node.verifySignature
  rw [within_ite]
  exact ⟨fun _ => within_pure, fun _ => Principal.verifySignature_within hsrc hsig⟩

/-! ## Message authentication codes -/

/-- The differences of the bytes, which are widened with their signs. -/
def Hmac.diff (mac1 mac2 : List UInt8) : BitVec 32 :=
  (mac1.zip mac2).foldl (fun d p =>
    d ||| (p.1.toBitVec.signExtend 32 ^^^ p.2.toBitVec.signExtend 32)) 0

def Hmac.equal (mac1 mac2 : List UInt8) : Bool := ((Hmac.diff mac1 mac2 ^^^ 0) - 1) >>> 31 == 1

theorem Hmac.diff_self (mac : List UInt8) : Hmac.diff mac mac = 0 := by
  have h : ∀ d : BitVec 32, (mac.zip mac).foldl
      (fun d p => d ||| (p.1.toBitVec.signExtend 32 ^^^ p.2.toBitVec.signExtend 32)) d = d := by
    induction mac with
    | nil => exact fun d => rfl
    | cons b bs ih => exact fun d => by simpa using ih d
  exact h 0

theorem Hmac.equal_self (mac : List UInt8) : Hmac.equal mac mac = true := by
  unfold Hmac.equal
  rw [Hmac.diff_self]
  decide

theorem Hmac.foldl_getLsbD (zs : List (UInt8 × UInt8)) {k : Nat} (hk : 7 ≤ k) (hk' : k < 32)
    (d : BitVec 32) :
    (zs.foldl (fun d p =>
          d ||| (p.1.toBitVec.signExtend 32 ^^^ p.2.toBitVec.signExtend 32)) d).getLsbD k =
      (d.getLsbD k || zs.any fun p => p.1.toBitVec.msb ^^ p.2.toBitVec.msb) := by
  induction zs generalizing d with
  | nil => simp
  | cons p zs ih =>
    have hbit : ∀ b : UInt8, (b.toBitVec.signExtend 32).getLsbD k = b.toBitVec.msb := fun b => by
      rw [BitVec.getLsbD_signExtend]
      by_cases h7 : k = 7
      · subst h7
        simp [BitVec.msb_eq_getLsbD_last]
      · simp [hk', show ¬ k < 8 by omega]
    rw [List.foldl_cons, ih, List.any_cons, BitVec.getLsbD_or,
      BitVec.getLsbD_xor, hbit, hbit, Bool.or_assoc]

/-- Two codes pass for equal as soon as one byte of them differs in its highest bit: the difference
is then a number with the bits 30 and 31, and `equal` looks at bit 31 of its predecessor. -/
theorem Hmac.equal_of_sign (mac1 mac2 : List UInt8)
    (h : ∃ p ∈ mac1.zip mac2, p.1.toBitVec.msb ≠ p.2.toBitVec.msb) :
    Hmac.equal mac1 mac2 = true := by
  have hany : ((mac1.zip mac2).any fun p => p.1.toBitVec.msb ^^ p.2.toBitVec.msb) = true := by
    obtain ⟨p, hp, hne⟩ := h
    exact List.any_eq_true.2 ⟨p, hp, by simpa using hne⟩
  have h31 : (Hmac.diff mac1 mac2).getLsbD 31 = true :=
    (Hmac.foldl_getLsbD (mac1.zip mac2) (by omega) (by omega) 0).trans (by rw [hany, Bool.or_true])
  have h30 : (Hmac.diff mac1 mac2).getLsbD 30 = true :=
    (Hmac.foldl_getLsbD (mac1.zip mac2) (by omega) (by omega) 0).trans (by rw [hany, Bool.or_true])
  unfold Hmac.equal
  generalize Hmac.diff mac1 mac2 = d at h31 h30 ⊢
  have h1 : d.toNat / 2 ^ 31 % 2 = 1 := by
    simpa [BitVec.getLsbD, Nat.testBit_eq_decide_div_mod_eq] using h31
  have h2 : d.toNat / 2 ^ 30 % 2 = 1 := by
    simpa [BitVec.getLsbD, Nat.testBit_eq_decide_div_mod_eq] using h30
  have hd := d.isLt
  have h0 : d ^^^ 0 = d := by simp
  have hone : (1 : BitVec 32).toNat = 1 := rfl
  rw [beq_iff_eq, h0]
  apply BitVec.eq_of_toNat_eq
  simp only [BitVec.toNat_ushiftRight, BitVec.toNat_sub, Nat.shiftRight_eq_div_pow, hone]
  omega

theorem Digest.length_bytes (d : Digest) : d.bytes.length = 32 := by simp [Digest.bytes]

variable (hmac : List UInt8 → List UInt8 → Digest)

/-- `gen_mac_out`. -/
def Principal.genMacOut (p : Principal) (msg : List UInt8) : List UInt8 := (hmac p.kout msg).bytes

/-- `verify_mac`, with the key of one of the two contexts: without a key nothing is accepted. -/
def verifyMac (key : Option (List UInt8)) (src : Int) (srcLen : Nat) (mac : Int) : Reads Bool :=
  match key with
  | none => pure false
  | some k => do
    let m ← bytes src srcLen
    let t ← bytes mac 32
    pure (Hmac.equal (hmac k m).bytes t)

/-- The replicas other than replica `i`, in the order of their identifiers. -/
def Node.others (N : Node) (i : Int) : List Nat :=
  (List.range N.numReplicas).filter fun j => decide ((j : Int) ≠ i)

/-- `gen_auth`: what `mac` generates for every other replica. -/
def Node.genAuth (N : Node) (mac : Principal → List UInt8) : List UInt8 :=
  (N.others N.id).flatMap fun i => mac (N.principals i)

/-- `gen_auth_out`. -/
def Node.genAuthOut (N : Node) (msg : List UInt8) : List UInt8 :=
  N.genAuth fun p => p.genMacOut hmac msg

/-- Where the code for this replica is in an authenticator of replica `i`. -/
def Node.macOffset (N : Node) (i : Int) : Int := if i < N.id then N.id * 32 - 32 else N.id * 32

/-- `verify_auth`, by the keys for incoming messages or those for outgoing ones. -/
def Node.verifyAuth (N : Node) (i : Int) (src : Int) (srcLen : Nat) (inn : Bool)
    (dest : Int) : Reads Bool :=
  match N.iToP i with
  | none => pure false
  | some p =>
    if i = N.id then pure false
    else verifyMac hmac (if inn then p.kin else some p.kout) src srcLen (dest + N.macOffset i)

/-- `verify_auth_in`. -/
def Node.verifyAuthIn (N : Node) (i : Int) (src : Int) (srcLen : Nat) (dest : Int) : Reads Bool :=
  N.verifyAuth hmac i src srcLen true dest

variable {hmac} {N : Node} {i dest : Int} {key : Option (List UInt8)} {mac : Int}

/-- What is read to check a code, if there is a key. -/
theorem within_verifyMac (hmac : List UInt8 → List UInt8 → Digest) :
    (verifyMac hmac key src srcLen mac).Within mem lo hi ↔
      (key.isSome = true → (0 < srcLen → lo ≤ src ∧ src + srcLen ≤ hi) ∧
          lo ≤ mac ∧ mac + 32 ≤ hi) := by
  cases key with
  | none => simp [verifyMac]
  | some k => simp [verifyMac]

/-- The replica that authenticated the message is another one whose key is known. -/
def Node.Keyed (N : Node) (i : Int) : Prop :=
  i ≠ N.id ∧ ∃ p, N.iToP i = some p ∧ p.kin.isSome = true

theorem within_verifyAuthIn (hmac : List UInt8 → List UInt8 → Digest) :
    (N.verifyAuthIn hmac i src srcLen dest).Within mem lo hi ↔
      (N.Keyed i → (0 < srcLen → lo ≤ src ∧ src + srcLen ≤ hi) ∧
          lo ≤ dest + N.macOffset i ∧ dest + N.macOffset i + 32 ≤ hi) := by
  unfold Node.verifyAuthIn Node.verifyAuth Node.Keyed
  cases N.iToP i with
  | none => simp
  | some p =>
    by_cases hi : i = N.id
    · simp [hi]
    · simp [hi, within_verifyMac]

theorem Node.macOffset_bounds (hid : N.id < N.numReplicas) (i : Int) (h : N.Keyed i) :
    0 ≤ N.macOffset i ∧ N.macOffset i + 32 ≤ N.authSize i := by
  obtain ⟨hne, p, hp, -⟩ := h
  have h0 : 0 ≤ i := by
    unfold Node.iToP at hp
    split at hp
    · omega
    · cases hp
  unfold Node.macOffset Node.authSize
  dsimp only
  split <;> split <;> split <;> omega

/-! ## Both ends of an authenticator -/

theorem length_filter_ne (a b : Nat) : ((List.range b).filter
      fun j : Nat => decide ((j : Int) ≠ a)).length = if a < b then b - 1 else b := by
  induction b with
  | zero => rfl
  | succ b ih =>
    rw [List.range_succ, List.filter_append, List.length_append, ih]
    by_cases hb : b = a
    · subst hb
      simp
    · rw [List.filter_cons_of_pos (by simpa using hb), List.filter_nil, List.length_singleton]
      split <;> split <;> omega

theorem length_flatMap_const {f : Nat → List UInt8} (l : List Nat) (hf : ∀ i, (f i).length = 32) :
    (l.flatMap f).length = 32 * l.length := by
  simp [List.length_flatMap, hf]
  ring

section

variable {a b : Nat} {N₁ N₂ : Node}

/-- The place of a replica among the others is one lower behind the replica that is left out. -/
theorem others_split (hb : b < N.numReplicas) (hne : b ≠ a) :
    ∃ pre post, N.others a = pre ++ b :: post ∧ pre.length = if a < b then b - 1 else b := by
  have hrange : List.range N.numReplicas = List.range b ++
    b :: (List.range (N.numReplicas - b - 1)).map fun k => b + (k + 1) := by
    have h : N.numReplicas = b + (N.numReplicas - b - 1 + 1) := by omega
    rw [h, List.range_add, List.range_succ_eq_map, List.map_cons, List.map_map]
    simp [Function.comp_def]
  refine ⟨_, ((List.range (N.numReplicas - b - 1)).map fun k => b + (k + 1)).filter
    fun j : Nat => decide ((j : Int) ≠ a), ?_, length_filter_ne a b⟩
  unfold Node.others
  rw [hrange, List.filter_append, List.filter_cons_of_pos (by simpa using hne)]

/-- **The code for a replica is where it looks for it.** -/
theorem genAuth_split (h₁ : N₁.id = a) (h₂ : N₂.id = b) (hb : b < N₁.numReplicas) (hne : a ≠ b)
    (mac : Principal → List UInt8) (hmac : ∀ p, (mac p).length = 32) :
    ∃ pre post, N₁.genAuth mac = pre ++ (mac (N₁.principals b) ++ post) ∧
      (pre.length : Int) = N₂.macOffset a := by
  obtain ⟨pre, post, hsplit, hlen⟩ := others_split (N := N₁) hb (Ne.symm hne)
  refine ⟨pre.flatMap fun i => mac (N₁.principals i),
    post.flatMap fun i => mac (N₁.principals i), ?_, ?_⟩
  · unfold Node.genAuth
    rw [h₁, hsplit, List.flatMap_append, List.flatMap_cons]
  · rw [length_flatMap_const pre fun i => hmac _, hlen]
    unfold Node.macOffset
    rw [h₂]
    push_cast
    split <;> split <;> omega

/-- With matching keys, a replica accepts what the other one generates. -/
theorem verifyAuthIn_genAuthOut (h₁ : N₁.id = a) (h₂ : N₂.id = b)
    (hb : b < N₁.numReplicas) (hne : a ≠ b) (hp : N₂.iToP (a : Int) = some (N₂.principals a))
    (hkey : (N₂.principals a).kin = some (N₁.principals b).kout) {len : Nat}
    (hmem : mem.Holds dest (N₁.genAuthOut hmac (mem.slice src len))) :
    (N₂.verifyAuthIn hmac a src len dest).run mem = true := by
  obtain ⟨pre, post, hsplit, hoff⟩ :=
    genAuth_split h₁ h₂ hb hne (fun p => p.genMacOut hmac (mem.slice src len))
    fun p => Digest.length_bytes _
  unfold Node.genAuthOut at hmem
  rw [hsplit, Memory.holds_append, Memory.holds_append, hoff] at hmem
  have hslice : mem.slice (dest + N₂.macOffset a) 32 =
    (N₁.principals b).genMacOut hmac (mem.slice src len) := by
    have h := hmem.2.1
    unfold Memory.Holds at h
    rwa [show ((N₁.principals b).genMacOut hmac (mem.slice src len)).length = 32 from
      Digest.length_bytes _] at h
  unfold Node.verifyAuthIn Node.verifyAuth
  rw [hp]
  dsimp only
  rw [if_neg (by rw [h₂]; omega), if_pos rfl, hkey]
  unfold verifyMac
  rw [run_bytes_bind, run_bytes_bind, run_pure, hslice]
  exact Hmac.equal_self _

end

end TinyBFT
