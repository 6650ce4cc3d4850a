import TinyBFT.NewKey
import TinyBFT.Lib.Run

/-!
# Agreement on session keys (`New_key.cc`, `Principal.cc`, `Node.cc`)

A replica chooses a key for the messages that it gets from each of the others and sends it to them,
encrypted, in a new-key message.

| here | there |
| --- | --- |
| `KeyPair`         | an RSA key with what mbedtls promises of it |
| `setInKey`, `setOutKey` | `set_in_key`, `set_out_key` (`Principal.cc:44-47, 70-77`) |
| `Principal.encrypt` | `encrypt` (`Principal.cc:105-129`) |
| `genSignature`    | `gen_signature` (`Node.cc:371-384`) |
| `refreshLoop`, `refreshKeys` | `refresh_keys` (`New_key.cc:63-101`), given `new_rid` and `random_key` |
| `handleNewKey`    | `handle` of a new-key (`Replica.cc:796-801`) |
| `System`, `step`  | the replicas, and all new-key messages built: they may be lost, delayed, repeated |
| `Genuine`         | ideal signatures |

`none` stands for a failed assertion. The key for a replica is found where it was put, though both
sides leave out the sender's own (`accepted_of_signed`), and likewise its code in an authenticator
(`genAuth_split`).
-/

namespace TinyBFT

open Reads Wire

/-- Ideal encryption and signatures. -/
structure KeyPair where
  pub : PublicKey
  priv : PrivateKey
  size_eq : priv.size = pub.size
  length_encrypt : ∀ {coins k c}, pub.encrypt coins k = some c → c.length = pub.size
  decrypt_encrypt : ∀ {coins k c}, pub.encrypt coins k = some c → priv.decrypt c = some k
  length_sign : ∀ d, (priv.sign d).length = pub.size
  verify_sign : ∀ d, pub.verify d (priv.sign d) = true

/-- The room for a signature by the key of a replica. -/
def KeyPair.sigSize (p : KeyPair) : Nat := alignedSize (p.pub.size + 4)

theorem KeyPair.le_sigSize (p : KeyPair) : 4 + p.pub.size ≤ p.sigSize := by
  have h := le_alignedSize (p.pub.size + 4)
  unfold KeyPair.sigSize
  omega

/-- A session key. -/
abbrev Key := { k : List UInt8 // k.length = 32 }

def Node.setPrincipal (N : Node) (i : Nat) (p : Principal) : Node :=
  { N with principals := Function.update N.principals i p }

def Node.setInKey (N : Node) (i : Nat) (k : List UInt8) : Node :=
  N.setPrincipal i { N.principals i with kin := some k }

/-- A key is set if it is newer than the last one. -/
def Node.setOutKey (N : Node) (i : Nat) (k : List UInt8) (t : Nat) : Node :=
  if (N.principals i).tstamp < t then
    N.setPrincipal i { N.principals i with kout := k, tstamp := t } else N

def Principal.encrypt (p : Principal) (coins : Nat) (src : List UInt8) (dstLen : Nat) :
    Option (List UInt8) :=
  if dstLen < p.pkey.size + 8 then none
  else
    (p.pkey.encrypt coins src).map fun c =>
      Bytes.ofNat 4 src.length ++ (Bytes.ofNat 4 p.pkey.size ++ c)

/-- A signature with its length in front, filled up with zeros. -/
def genSignature (hash : List UInt8 → Digest) (K : PrivateKey) (sigSize : Nat)
    (src : List UInt8) : List UInt8 :=
  Bytes.ofNat 4 K.size ++ K.sign (hash src) ++ List.replicate (sigSize - (4 + K.size)) 0

/-- The loop of `refresh_keys` over the replicas from `i` on, as many as are left. -/
def refreshLoop (fresh : Nat → Key) (coins : Nat → Nat) :
    Nat → Nat → Node → Nat → Option (Node × List UInt8)
  | 0, _, N, _ => some (N, [])
  | left + 1, i, N, dstLen =>
    if i = N.id then refreshLoop fresh coins left (i + 1) N dstLen
    else do
      let c ← (N.principals i).encrypt (coins i) (fresh i).1 dstLen
      let r ← refreshLoop fresh coins left (i + 1) (N.setInKey i (fresh i).1) (dstLen - c.length)
      pure (r.1, c ++ r.2)

/-- The header of a new-key message. -/
def newKeyHeader (size : Nat) (rid : UInt64) (id : Nat) : List UInt8 :=
  [11, 0, 0, 0] ++
    (Bytes.ofNat 4 size ++ (Bytes.ofNat 8 rid.toNat ++ (Bytes.ofNat 4 id ++ [0, 0, 0, 0])))

/-- What is signed: the header and the keys, filled up to a multiple of eight bytes. -/
def newKeyBytes (sigSize : Nat) (rid : UInt64) (id : Nat) (keys : List UInt8) : List UInt8 :=
  newKeyHeader (alignedSize (24 + keys.length) + sigSize) rid id ++
    (keys ++ List.replicate (alignedSize (24 + keys.length) - (24 + keys.length)) 0)

/-- The new keys are those of `fresh`; the replica also gives one to itself. -/
def Node.refreshKeys (hash : List UInt8 → Digest) (K : PrivateKey) (N : Node) (rid : UInt64)
    (own : Key) (fresh : Nat → Key) (coins : Nat → Nat) : Option (Node × List UInt8) := do
  let r ← refreshLoop fresh coins N.numReplicas 0 (N.setOutKey N.id own.1 rid.toNat)
    (N.P.maxMessageSize - 24)
  let sigSize := (N.principals N.id).sigSize
  if N.P.maxMessageSize - (24 + r.2.length) < sigSize then none
  else
    let msg := newKeyBytes sigSize rid N.id r.2
    pure (r.1, msg ++ genSignature hash K sigSize msg)

/-- A replica does not look at its own messages. -/
def Node.handleNewKey (hash : List UInt8 → Digest) (K : PrivateKey) (N : Node)
    (mem : Memory) : Option Node :=
  if NewKey.sender mem = N.id then some N
  else
    match ((NewKey.verify hash N K).run mem).1 with
    | .refused => some N
    | .asserted => none
    | .accepted k => some (N.setOutKey (NewKey.sender mem).toNat (k.getD []) (NewKey.rid mem))

/-! ## The system -/

/-- A new-key message, and the keys that its sender chose. -/
structure Sent where
  sender : Nat
  rid : UInt64
  keys : Nat → Key
  bytes : List UInt8

structure System where
  nodes : Nat → Node
  sent : List Sent

inductive Event where
  | refresh (i : Nat) (rid : UInt64) (own : Key) (fresh : Nat → Key) (coins : Nat → Nat)
  | deliver (j : Nat) (mem : Memory)

section

variable (hash : List UInt8 → Digest) (pair : Nat → KeyPair)

def System.step (s : System) : Event → Option System
  | .refresh i rid own fresh coins =>
    ((s.nodes i).refreshKeys hash (pair i).priv rid own fresh coins).map fun r =>
      { nodes := Function.update s.nodes i r.1, sent := s.sent ++ [⟨i, rid, fresh, r.2⟩] }
  | .deliver j mem =>
    ((s.nodes j).handleNewKey hash (pair j).priv mem).map
      fun N => { s with nodes := Function.update s.nodes j N }

/-- The part of a message that is signed. -/
def Sent.signed (m : Sent) : List UInt8 := m.bytes.take (m.bytes.length - (pair m.sender).sigSize)

variable (P : Params) (n : Nat) (honest : Nat → Prop)

/-- A message with the signature of an honest replica is one that it has signed. -/
def Genuine (s : System) (j : Nat) (mem : Memory) : Prop :=
  ∀ i < n, honest i → NewKey.sender mem = i →
  NewKey.signedOk hash (s.nodes j) mem ((s.nodes j).principals i) (size mem) = true →
  ∃ m ∈ s.sent, m.sender = i ∧
    mem.slice 0 ((size mem).toNat - ((s.nodes j).principals i).sigSize) = m.signed pair

/-- Events of the replicas. -/
def Event.Possible (s : System) : Event → Prop
  | .refresh i _ _ _ _ => i < n
  | .deliver j mem => j < n ∧ Received mem P 11 24 ∧ Genuine hash pair n honest s j mem

/-- The replicas know themselves, their number and each other's public keys. -/
structure Configured (N : Node) (i : Nat) : Prop where
  params : N.P = P
  id : N.id = i
  replicas : N.numReplicas = n
  principals : n ≤ N.numPrincipals
  keys : ∀ j, (N.principals j).pkey = (pair j).pub

end

/-! ## The keys of a message -/

section

variable (pair : Nat → KeyPair) (keys : Nat → Key) (c : Nat → List UInt8)

/-- A key of a message: its length, that of its ciphertext, and the ciphertext. -/
def keyEntry (j : Nat) : List UInt8 :=
  Bytes.ofNat 4 (keys j).1.length ++ (Bytes.ofNat 4 (pair j).pub.size ++ c j)

/-- The keys for the replicas from `i` on, without the one of the sender. -/
def keyEntries (sender : Nat) : Nat → Nat → List UInt8
  | 0, _ => []
  | left + 1, i =>
    if i = sender then
      keyEntries sender left (i + 1) else keyEntry pair keys c i ++ keyEntries sender left (i + 1)

theorem keyEntries_congr {pair : Nat → KeyPair} {keys : Nat → Key} {c c' : Nat → List UInt8}
    {sender left i : Nat} (h : ∀ j, i ≤ j → c' j = c j) :
    keyEntries pair keys c sender left i = keyEntries pair keys c' sender left i := by
  induction left generalizing i with
  | zero => rfl
  | succ left ih =>
    rw [keyEntries, keyEntries, ih fun j hj => h j (by omega), keyEntry, keyEntry, h i le_rfl]

/-- The ciphertext is that of the key. -/
structure Sealed (j : Nat) : Prop where
  length : (c j).length = (pair j).pub.size
  decrypts : (pair j).priv.decrypt (c j) = some (keys j).1

end

variable {hash : List UInt8 → Digest} {pair : Nat → KeyPair} {keys : Nat → Key}
    {c : Nat → List UInt8} {P : Params} {n : Nat}
  {honest : Nat → Prop} {N N' : Node} {i j a b : Nat} {k cs : List UInt8} {t : Nat} {mem : Memory}
  {m : Sent} {s s' : System}

/-- **A key is found where it was put**: the sender leaves out itself in one loop, the receiver in
another. -/
theorem accepted_of_holds {sender me left : Nat} {cur : NewKey.Cursor} {k : Option (List UInt8)}
    (hme : me ≠ sender) (hs : ∀ j, j ≠ sender → i ≤ j → j < i + left → Sealed pair keys c j)
    (hm : mem.Holds cur.dst (keyEntries pair keys c sender left i))
    (hle : (keyEntries pair keys c sender left i).length ≤ cur.len) (hlen : cur.len < 2 ^ 31 - 8) :
    ((NewKey.keysLoop me (pair me).priv sender left i cur k).run mem).1 =
      .accepted (if i ≤ me ∧ me < i + left then some (keys me).1 else k) := by
  induction left generalizing i cur k with
  | zero =>
    rw [if_neg (by omega)]
    rfl
  | succ left ih =>
    have hmod : cur.len % 2 ^ 32 = cur.len := Nat.mod_eq_of_lt (by omega)
    unfold NewKey.keysLoop
    unfold keyEntries at hm hle
    by_cases hi : i = sender
    · rw [if_pos hi] at hm hle
      rw [if_pos (by exact_mod_cast hi),
        ih (fun j hj h1 h2 => hs j hj (by omega) (by omega)) hm hle hlen]
      congr 1
      by_cases h : i + 1 ≤ me ∧ me < i + 1 + left
      · rw [if_pos h, if_pos (by omega)]
      · rw [if_neg h, if_neg (by omega)]
    · rw [if_neg hi] at hm hle
      have hsi := hs i hi le_rfl (by omega)
      have hsize := (pair i).pub.size_le
      have h32 := (keys i).2
      -- the three parts of the key and what follows
      rw [Memory.holds_append] at hm
      obtain ⟨hentry, hrest⟩ := hm
      have hel : (keyEntry pair keys c i).length = 8 + (pair i).pub.size := by
        unfold keyEntry
        rw [List.length_append, List.length_append, Bytes.length_ofNat,
          Bytes.length_ofNat, hsi.length]
        omega
      rw [List.length_append, hel] at hle
      rw [hel] at hrest
      unfold keyEntry at hentry
      rw [Memory.holds_append, Memory.holds_append, Bytes.length_ofNat] at hentry
      obtain ⟨hplain, hcl, hc⟩ := hentry
      have hplain' : Bytes.toNat (mem.slice cur.dst 4) = 32 := by
        have : mem.slice cur.dst 4 = Bytes.ofNat 4 (keys i).1.length := by
          simpa [Memory.Holds] using hplain
        rw [this, Bytes.toNat_ofNat, h32, Nat.mod_eq_of_lt (by omega)]
      have hcl' : NewKey.cipherLen mem cur.dst = (pair i).pub.size := by
        have : mem.slice (cur.dst + 4) 4 = Bytes.ofNat 4 (pair i).pub.size := by
          simpa [Memory.Holds] using hcl
        unfold NewKey.cipherLen
        rw [this, Bytes.toNat_ofNat, Nat.mod_eq_of_lt (by omega)]
      have hnext : cur.advance ((pair i).pub.size + 8) =
        ⟨cur.dst + ((8 + (pair i).pub.size : Nat) : Int), cur.len - (8 + (pair i).pub.size)⟩ := by
        unfold NewKey.Cursor.advance unsigned64
        congr 1
        · push_cast
          ring
        · omega
      have hgo : ∀ k, ((NewKey.keysLoop me (pair me).priv
        sender left (i + 1) (cur.advance ((pair i).pub.size + 8)) k).run mem).1 =
          .accepted (if i + 1 ≤ me ∧ me < i + 1 + left then some (keys me).1 else k) := by
        intro k
        rw [hnext]
        exact ih (fun j hj h1 h2 => hs j hj (by omega) (by omega))
          hrest (by dsimp only; omega) (by dsimp only; omega)
      have hcsize : (NewKey.cipherSize cur.dst cur.len).run mem = (pair i).pub.size + 8 := by
        rw [NewKey.run_cipherSize hlen, hcl', if_pos ⟨by omega, by omega⟩]
      rw [if_neg (by exact_mod_cast hi), run_bind, hmod, hcsize, if_neg (by omega)]
      by_cases hown : i = me
      · subst hown
        have hkey : (NewKey.ownKey (pair i).priv cur).run mem = .key (keys i).1 := by
          refine (NewKey.run_ownKey (by omega)).2 ⟨by omega,
            hplain', by rw [hcl', (pair i).size_eq], ?_, h32⟩
          have hslice : mem.slice (cur.dst + 8) (pair i).pub.size = c i := by
            rw [← hsi.length]
            have : cur.dst + 8 = cur.dst + ((4 : Nat) : Int) + ((4 : Nat) : Int) := by omega
            rw [this]
            exact hc
          rw [hcl', hslice, hsi.decrypts]
        rw [if_pos rfl, run_bind, hkey, run_bind]
        show ((NewKey.keysLoop i (pair i).priv sender left
          (i + 1) (cur.advance ((pair i).pub.size + 8)) (some (keys i).1)).run mem).1 = _
        rw [hgo, if_neg (by omega), if_pos (by omega)]
      · rw [if_neg hown, run_bind]
        show ((NewKey.keysLoop me (pair me).priv sender
          left (i + 1) (cur.advance ((pair i).pub.size + 8)) k).run mem).1 = _
        rw [hgo]
        congr 1
        by_cases h : i + 1 ≤ me ∧ me < i + 1 + left
        · rw [if_pos h, if_pos (by omega)]
        · rw [if_neg h, if_neg (by omega)]

/-! ## Building a message -/

@[simp] theorem setPrincipal_id {p : Principal} : (N.setPrincipal j p).id = N.id := rfl

@[simp] theorem setInKey_id : (N.setInKey j k).id = N.id := rfl

theorem Configured.setPrincipal {p : Principal} (h : Configured pair P n N i)
    (hp : p.pkey = (pair j).pub) :
    Configured pair P n (N.setPrincipal j p) i := by
  refine ⟨h.params, h.id, h.replicas, h.principals, fun l => ?_⟩
  by_cases hl : l = j
  · subst hl
    simpa [Node.setPrincipal] using hp
  · simpa [Node.setPrincipal, hl] using h.keys l

theorem Configured.setInKey (h : Configured pair P n N i) :
    Configured pair P n (N.setInKey j k) i := h.setPrincipal (h.keys j)

theorem Configured.setOutKey (h : Configured pair P n N i) :
    Configured pair P n (N.setOutKey j k t) i := by
  unfold Node.setOutKey
  split
  · exact h.setPrincipal (h.keys j)
  · exact h

theorem setInKey_principals : (N.setInKey j k).principals i = if i = j then
    { N.principals i with kin := some k } else N.principals i := by
  unfold Node.setInKey Node.setPrincipal
  by_cases h : i = j
  · subst h
    simp
  · simp [h]

/-- An outgoing key is the only thing that `setOutKey` sets, with its time. -/
theorem setOutKey_principals : (N.setOutKey j k t).principals i =
    if i = j ∧ (N.principals j).tstamp < t then
  { N.principals i with kout := k, tstamp := t } else N.principals i := by
  unfold Node.setOutKey Node.setPrincipal
  by_cases ht : (N.principals j).tstamp < t
  · by_cases h : i = j
    · subst h
      simp [ht]
    · simp [ht, h]
  · simp [ht]

/-- What the loop does to the replica: it sets its keys for incoming messages. -/
theorem refreshLoop_spec {coins : Nat → Nat} {left dstLen : Nat} (hN : Configured pair P n N a)
    (h : refreshLoop keys coins left i N dstLen = some (N', cs)) :
    Configured pair P n N' a ∧
      (∀ j, N'.principals j = if (i ≤ j ∧ j < i + left) ∧
          j ≠ a then { N.principals j with kin := some (keys j).1 } else N.principals j) ∧
      ∃ c, (∀ j, j ≠ a → i ≤ j → j < i + left → Sealed pair keys c j) ∧
        cs = keyEntries pair keys c a left i := by
  induction left generalizing i N dstLen cs with
  | zero =>
    obtain ⟨rfl, rfl⟩ := Prod.mk.inj (Option.some.inj h)
    refine ⟨hN, fun j => ?_, fun _ => [], fun j _ _ => by omega, rfl⟩
    rw [if_neg (by omega)]
  | succ left ih =>
    unfold refreshLoop at h
    by_cases hi : i = N.id
    · rw [if_pos hi] at h
      have hia : i = a := hi.trans hN.id
      obtain ⟨h1, h2, c, h3, h4⟩ := ih hN h
      refine ⟨h1, fun j => ?_, c, fun j hj h5 h6 => h3 j hj (by omega) (by omega), ?_⟩
      · rw [h2]
        by_cases hj : ((i + 1 ≤ j ∧ j < i + 1 + left) ∧ j ≠ a)
        · rw [if_pos hj, if_pos (by omega)]
        · rw [if_neg hj, if_neg (by omega)]
      · rw [keyEntries, if_pos hia]
        exact h4
    · rw [if_neg hi] at h
      have hia : i ≠ a := fun he => hi (he.trans hN.id.symm)
      simp only [Option.bind_eq_bind, Option.bind_eq_some_iff,
        Option.pure_def, Option.some.injEq, Prod.mk.injEq] at h
      obtain ⟨e, he, ⟨M, cs'⟩, hloop, rfl, rfl⟩ := h
      obtain ⟨h1, h2, c, h3, h4⟩ := ih hN.setInKey hloop
      -- the ciphertext of this key
      unfold Principal.encrypt at he
      split at he
      · cases he
      obtain ⟨ci, hci, rfl⟩ := Option.map_eq_some_iff.1 he
      rw [hN.keys i] at hci
      have hsi : Sealed pair keys (Function.update c i ci) i := by
        refine ⟨?_, ?_⟩
        · rw [Function.update_self]
          exact (pair i).length_encrypt hci
        · rw [Function.update_self]
          exact (pair i).decrypt_encrypt hci
      have hother : ∀ {j}, i + 1 ≤ j → Function.update c i ci j = c j :=
        fun h => Function.update_of_ne (by omega) _ _
      refine ⟨h1, fun j => ?_, Function.update c i ci, fun j hj h5 h6 => ?_, ?_⟩
      · rw [h2, setInKey_principals]
        by_cases hj : j = i
        · subst hj
          rw [if_neg (by omega), if_pos rfl, if_pos ⟨by omega, hia⟩]
        · rw [if_neg hj]
          by_cases hj' : (i + 1 ≤ j ∧ j < i + 1 + left) ∧ j ≠ a
          · rw [if_pos hj', if_pos (by omega)]
          · rw [if_neg hj', if_neg (by omega)]
      · rcases Nat.eq_or_lt_of_le h5 with rfl | h5
        · exact hsi
        · have := h3 j hj h5 (by omega)
          exact ⟨by rw [hother h5]; exact this.length, by rw [hother h5]; exact this.decrypts⟩
      · rw [keyEntries, if_neg hia, h4]
        congr 1
        · rw [keyEntry, Function.update_self, hN.keys i]
        · exact keyEntries_congr fun j hj => hother hj

theorem Configured.sigSize_eq (h : Configured pair P n N i) (j : Nat) :
    (N.principals j).sigSize = (pair j).sigSize := by
  unfold Principal.sigSize KeyPair.sigSize
  rw [h.keys j]

/-- **A message as `refresh_keys` builds it.** -/
structure Built (hash : List UInt8 → Digest) (pair : Nat → KeyPair) (P : Params) (n : Nat)
    (m : Sent) : Prop where
  sender_lt : m.sender < n
  parts : ∃ c, (∀ j, j ≠ m.sender → j < n → Sealed pair m.keys c j) ∧
    24 + (keyEntries pair m.keys c m.sender n 0).length +
      (pair m.sender).sigSize ≤ P.maxMessageSize ∧
    m.bytes = newKeyBytes (pair m.sender).sigSize m.rid
      m.sender (keyEntries pair m.keys c m.sender n 0) ++
      genSignature hash (pair m.sender).priv (pair m.sender).sigSize
        (newKeyBytes (pair m.sender).sigSize m.rid m.sender (keyEntries pair m.keys c m.sender n 0))

theorem length_newKeyBytes {sigSize id : Nat} {rid : UInt64} :
    (newKeyBytes sigSize rid id cs).length = alignedSize (24 + cs.length) := by
  have h := le_alignedSize (24 + cs.length)
  simp only [newKeyBytes, newKeyHeader, List.length_append,
    List.length_replicate, Bytes.length_ofNat, List.length_cons, List.length_nil]
  omega

theorem length_genSignature {src : List UInt8} :
    (genSignature hash (pair i).priv (pair i).sigSize src).length = (pair i).sigSize := by
  have h := (pair i).le_sigSize
  have hs := (pair i).size_eq
  simp only [genSignature, List.length_append, List.length_replicate,
    Bytes.length_ofNat, (pair i).length_sign]
  omega

/-- What a replica does when it chooses new keys, and what the message is like. -/
theorem refreshKeys_spec {K : PrivateKey} {rid : UInt64} {own : Key} {coins : Nat → Nat}
    {bs : List UInt8} (hN : Configured pair P n N a) (hK : K = (pair a).priv) (ha : a < n)
    (h : N.refreshKeys hash K rid own keys coins = some (N', bs)) :
    Configured pair P n N' a ∧ Built hash pair P n ⟨a, rid, keys, bs⟩ ∧
      ∀ j, j ≠ a → N'.principals j = if j < n then { N.principals j with kin := some (keys j).1 }
        else N.principals j := by
  subst hK
  unfold Node.refreshKeys at h
  simp only [Option.bind_eq_bind, Option.bind_eq_some_iff] at h
  obtain ⟨⟨M, cs⟩, hloop, h⟩ := h
  have hset : Configured pair P n (N.setOutKey N.id own.1 rid.toNat) a := hN.setOutKey
  obtain ⟨hM, hprin, c, hc, rfl⟩ := refreshLoop_spec hset hloop
  dsimp only at h
  rw [hN.id, hN.sigSize_eq, hN.params] at h
  split at h
  · cases h
  rename_i hfits
  obtain ⟨rfl, rfl⟩ := Prod.mk.inj (Option.some.inj h)
  rw [hN.replicas] at hfits hprin hc ⊢
  refine ⟨hM, ⟨ha, c, fun j hj hjn => hc j hj (Nat.zero_le j) (by omega), ?_, rfl⟩, fun j hj => ?_⟩
  · have hpos := (pair a).le_sigSize
    dsimp only
    omega
  · have hsame : (N.setOutKey N.id own.1 rid.toNat).principals j = N.principals j := by
      rw [setOutKey_principals, if_neg fun he => hj (he.1.trans hN.id)]
    rw [hprin, hsame]
    by_cases hjn : j < n
    · rw [if_pos ⟨⟨Nat.zero_le j, by omega⟩, hj⟩, if_pos hjn]
    · rw [if_neg (by omega), if_neg hjn]

/-- The fields of a message are read back from its signed part. -/
theorem fields_of_holds {sigSize id : Nat} {rid : UInt64}
    (h : mem.Holds 0 (newKeyBytes sigSize rid id cs)) (hlen : 24 + cs.length + sigSize ≤ 65507)
    (hid : id < 2 ^ 31) :
    size mem = (alignedSize (24 + cs.length) + sigSize : Nat) ∧
      NewKey.rid mem = rid.toNat ∧ NewKey.sender mem = id ∧ mem.Holds 24 cs := by
  have hal := alignedSize_lt (24 + cs.length)
  unfold newKeyBytes newKeyHeader at h
  simp only [Memory.holds_append, Bytes.length_ofNat, List.length_append,
    List.length_cons, List.length_nil] at h
  obtain ⟨⟨-, hsz, hrid, hid', -⟩, hcs, -⟩ := h
  have h1 : mem.slice 4 4 = Bytes.ofNat 4 (alignedSize (24 + cs.length) + sigSize) := by
    simpa [Memory.Holds] using hsz
  have h2 : mem.slice 8 8 = Bytes.ofNat 8 rid.toNat := by simpa [Memory.Holds] using hrid
  have h3 : mem.slice 16 4 = Bytes.ofNat 4 id := by simpa [Memory.Holds] using hid'
  have hr := rid.toNat_lt
  refine ⟨?_, ?_, ?_, ?_⟩
  · show Bytes.toInt (mem.slice 4 4) = _
    rw [h1]
    exact Bytes.toInt_ofNat (by omega)
  · show Bytes.toNat (mem.slice 8 8) = _
    rw [h2, Bytes.toNat_ofNat]
    exact Nat.mod_eq_of_lt (by omega)
  · show Bytes.toInt (mem.slice 16 4) = _
    rw [h3]
    exact Bytes.toInt_ofNat (by omega)
  · simpa using hcs

/-! ## Receiving it -/

/-- A received message whose signed part is that of `m`. -/
def SameSigned (pair : Nat → KeyPair) (m : Sent) (mem : Memory) : Prop :=
  mem.slice 0 ((size mem).toNat - (pair m.sender).sigSize) = m.signed pair

theorem Built.signed_eq (h : Built hash pair P n m) :
    ∃ c, (∀ j, j ≠ m.sender → j < n → Sealed pair m.keys c j) ∧
    24 + (keyEntries pair m.keys c m.sender n 0).length + (pair m.sender).sigSize ≤ 65507 ∧
    m.signed pair = newKeyBytes (pair m.sender).sigSize
      m.rid m.sender (keyEntries pair m.keys c m.sender n 0) := by
  obtain ⟨-, c, hc, hfits, hbytes⟩ := h
  have hP := P.maxMessageSize_le
  refine ⟨c, hc, by omega, ?_⟩
  unfold Sent.signed
  rw [hbytes, List.length_append, length_genSignature, Nat.add_sub_cancel]
  exact List.take_left

theorem Configured.lt_two_pow (h : Configured pair P n N b) : n < 2 ^ 31 := by
  have h1 := N.replicas_le
  have h2 := N.P.viewChange_fits
  have h3 := N.P.maxMessageSize_le
  have h4 := h.replicas
  omega

/-- The numbers and keys in a message with the signed part of `m` are those of `m`. -/
theorem SameSigned.fields (hb : Built hash pair P n m) (hN : Configured pair P n N b)
    (h : SameSigned pair m mem) :
    NewKey.rid mem = m.rid.toNat ∧ NewKey.sender mem = m.sender ∧
      24 ≤ size mem ∧ size mem < 2 ^ 31 - 8 ∧
      ∃ c, (∀ j, j ≠ m.sender → j < n → Sealed pair m.keys c j) ∧
        mem.Holds 24 (keyEntries pair m.keys c m.sender n 0) ∧
        24 + (keyEntries pair m.keys c m.sender n 0).length ≤ size mem := by
  obtain ⟨c, hc, hfits, hsigned⟩ := hb.signed_eq
  unfold SameSigned at h
  rw [hsigned] at h
  have hlen := congrArg List.length h
  rw [Memory.length_slice, length_newKeyBytes] at hlen
  have hholds : mem.Holds 0 (newKeyBytes (pair m.sender).sigSize
    m.rid m.sender (keyEntries pair m.keys c m.sender n 0)) := by
    unfold Memory.Holds
    rw [length_newKeyBytes, ← hlen]
    exact h
  have hn := hN.lt_two_pow
  have hlt := hb.sender_lt
  obtain ⟨hsize, hrid, hid, hkeys⟩ := fields_of_holds hholds hfits (by omega)
  have hal := le_alignedSize (24 + (keyEntries pair m.keys c m.sender n 0).length)
  have hal' := alignedSize_lt (24 + (keyEntries pair m.keys c m.sender n 0).length)
  exact ⟨hrid, hid, by omega, by omega, c, hc, hkeys, by omega⟩

/-- **The key that is accepted from a message of `m` is the one that its sender chose.** -/
theorem accepted_of_signed (hb : Built hash pair P n m) (hN : Configured pair P n N b) (hbn : b < n)
    (hne : b ≠ m.sender) (h : SameSigned pair m mem) (hc : NewKey.Checked hash N mem) :
    ((NewKey.verify hash N (pair b).priv).run mem).1 = .accepted (some (m.keys b).1) := by
  obtain ⟨-, hid, h24, hlt, c, hsealed, hkeys, hlen⟩ := h.fields hb hN
  have hlen' : (NewKey.cursorAt mem 0).len = (size mem - 24).toNat := rfl
  have hloop :
    ((NewKey.keysLoop b (pair b).priv m.sender n 0 (NewKey.cursorAt mem 0) none).run mem).1 =
      .accepted (if 0 ≤ b ∧ b < 0 + n then some (m.keys b).1 else none) :=
    accepted_of_holds hne (fun j hj _ hjn => hsealed j hj (by omega)) hkeys (by omega) (by omega)
  rw [NewKey.run_verify rfl h24 (by omega) hc, hN.replicas, hN.id, hid, hloop, if_pos (by omega)]

theorem Configured.iToP (hN : Configured pair P n N b) (ha : a < n) :
    N.iToP (a : Int) = some (N.principals a) := by
  have h := hN.principals
  unfold Node.iToP
  rw [if_pos (by omega), Int.toNat_natCast]

/-- What a replica does with a message that has the signed part of `m` and a signature that
verifies. -/
theorem handle_of_signed (hb : Built hash pair P n m) (hN : Configured pair P n N b) (hbn : b < n)
    (hne : b ≠ m.sender) (h : SameSigned pair m mem)
    (hs : NewKey.signedOk hash N mem (N.principals m.sender) (size mem) = true) :
    N.handleNewKey hash (pair b).priv mem =
      some (N.setOutKey m.sender (m.keys b).1 m.rid.toNat) := by
  obtain ⟨hrid, hid, h24, hlt, -⟩ := h.fields hb hN
  have hp := hN.iToP hb.sender_lt
  unfold Node.handleNewKey
  rw [if_neg (by rw [hid, hN.id]; omega)]
  by_cases ht : (N.principals m.sender).tstamp < m.rid.toNat
  · rw [accepted_of_signed hb hN hbn hne h ⟨_, hid ▸ hp, hrid ▸ ht, hs⟩, hid, hrid]
    rfl
  · -- an old message is refused, and would not set a key
    have hc : ¬ NewKey.Checked hash N mem := by
      rintro ⟨p, hp', hlt', -⟩
      rw [hid, hp] at hp'
      obtain rfl := Option.some.inj hp'
      exact ht (hrid ▸ hlt')
    rw [NewKey.run_verify_refused rfl h24 (by omega) hc, Node.setOutKey, if_neg ht]

/-- A message as it was built is signed, whatever lies behind it in the buffer. -/
theorem signed_ofBytes (hb : Built hash pair P n m) (hN : Configured pair P n N b)
    (hne : b ≠ m.sender) (stale : Memory) :
    SameSigned pair m (Memory.ofBytes m.bytes stale) ∧
      NewKey.signedOk hash N (Memory.ofBytes m.bytes stale)
        (N.principals m.sender) (size (Memory.ofBytes m.bytes stale)) = true := by
  obtain ⟨hlt, c, hc, hfits, hbytes⟩ := hb
  have hP := P.maxMessageSize_le
  have hn := hN.lt_two_pow
  generalize hmsg : newKeyBytes (pair m.sender).sigSize
    m.rid m.sender (keyEntries pair m.keys c m.sender n 0) = msg at hbytes
  have hlen : msg.length = alignedSize (24 + (keyEntries pair m.keys c m.sender n 0).length) := by
    rw [← hmsg, length_newKeyBytes]
  have hholds : (Memory.ofBytes m.bytes stale).Holds 0
    (msg ++ genSignature hash (pair m.sender).priv (pair m.sender).sigSize msg) := by
    rw [← hbytes]
    exact Memory.slice_ofBytes _
  generalize Memory.ofBytes m.bytes stale = mem at hholds ⊢
  rw [Memory.holds_append] at hholds
  obtain ⟨hm, hsig⟩ := hholds
  obtain ⟨hsize, -, hid, -⟩ := fields_of_holds (hmsg ▸ hm) (by omega) (by omega)
  unfold SameSigned
  generalize size mem = sz at hsize ⊢
  have hold : sz.toNat - (pair m.sender).sigSize = msg.length := by omega
  refine ⟨?_, ?_⟩
  · unfold Sent.signed
    rw [hold, hbytes, List.length_append, length_genSignature, Nat.add_sub_cancel, List.take_left]
    exact hm
  · have hle := (pair m.sender).le_sigSize
    have hsz := (pair m.sender).pub.size_le
    have hpk := hN.keys m.sender
    rw [Int.zero_add] at hsig
    unfold genSignature at hsig
    rw [Memory.holds_append, Memory.holds_append, Bytes.length_ofNat] at hsig
    obtain ⟨⟨hsl, hsg⟩, -⟩ := hsig
    have h1 : mem.slice msg.length 4 = Bytes.ofNat 4 (pair m.sender).pub.size := by
      rw [← (pair m.sender).size_eq]
      simpa [Memory.Holds] using hsl
    have h2 : mem.slice (msg.length + 4) (pair m.sender).pub.size =
      (pair m.sender).priv.sign (hash msg) := by
      rw [← (pair m.sender).length_sign (hash msg)]
      exact hsg
    have h3 : mem.slice 0 msg.length = msg := hm
    unfold NewKey.signedOk
    rw [hN.sigSize_eq, hold, hid]
    rw [decide_eq_true (by omega), Bool.true_and]
    unfold Node.verifySignature Principal.verifySignature PublicKey.verifySig
    rw [if_neg (by rw [hN.id]; omega), run_bytes_bind, h1,
      Bytes.toNat_ofNat, Nat.mod_eq_of_lt (by omega), hN.sigSize_eq, if_neg (by omega),
      hpk, if_neg (by omega), run_bytes_bind, run_bytes_bind,
        h2, h3, run_pure, (pair m.sender).verify_sign]

/-- A message that is not newer than the last one sets no key. -/
theorem handle_stale (hN : Configured pair P n N b) (hr : Received mem P 11 24) (ha : a < n)
    (hid : NewKey.sender mem = a) (hold : NewKey.rid mem ≤ (N.principals a).tstamp) :
    N.handleNewKey hash (pair b).priv mem = some N := by
  obtain ⟨-, h24, -, hmax⟩ := hr.spec
  have hP := P.maxMessageSize_le
  have hal := alignedSize_lt P.maxMessageSize
  have hc : ¬ NewKey.Checked hash N mem := by
    rintro ⟨p, hp, hlt, -⟩
    rw [hid, hN.iToP ha] at hp
    obtain rfl := Option.some.inj hp
    omega
  unfold Node.handleNewKey
  split
  · rfl
  · rw [NewKey.run_verify_refused rfl h24 (by omega) hc]

/-! ## Runs of the system -/

/-- The last message of a replica. -/
def System.lastSent (s : System) (a : Nat) : Option Sent :=
  (s.sent.filter fun m => m.sender == a).getLast?

/-- The key of `a` for the messages that it gets from `b` is the one that it chose last. -/
def InKeyFrom (s₀ s : System) (a b : Nat) : Prop :=
  ((s.nodes a).principals b).kin = (s.lastSent a).elim ((s₀.nodes a).principals b).kin
    fun m => some (m.keys b).1

/-- The key of `b` for the messages that it sends to `a` is the one in the message of `a` with the
time of the key, if it has accepted one. -/
def OutKeyFrom (s₀ s : System) (a b : Nat) : Prop :=
  (((s.nodes b).principals a).kout = ((s₀.nodes b).principals a).kout ∧
      ((s.nodes b).principals a).tstamp = ((s₀.nodes b).principals a).tstamp) ∨
    ∃ m ∈ s.sent, m.sender = a ∧ ((s.nodes b).principals a).tstamp = m.rid.toNat ∧
      ((s.nodes b).principals a).kout = (m.keys b).1

/-- What every run keeps. -/
structure Inv (hash : List UInt8 → Digest) (pair : Nat → KeyPair) (P : Params) (n : Nat)
    (honest : Nat → Prop) (s₀ s : System) : Prop where
  configured : ∀ i < n, Configured pair P n (s.nodes i) i
  built : ∀ m ∈ s.sent, Built hash pair P n m
  inKey : ∀ a < n, ∀ b < n, a ≠ b → InKeyFrom s₀ s a b
  outKey : ∀ a < n, ∀ b < n, a ≠ b → honest a → OutKeyFrom s₀ s a b

/-- What a new-key message does to a replica: nothing, or it sets the key for its sender. -/
theorem handle_cases {K : PrivateKey} (h24 : 24 ≤ size mem) (hlt : size mem < 2 ^ 31)
    (h : N.handleNewKey hash K mem = some N') :
    N' = N ∨ ∃ k, NewKey.Checked hash N mem ∧ ((NewKey.verify hash N K).run mem).1 = .accepted k ∧
      N' = N.setOutKey (NewKey.sender mem).toNat (k.getD []) (NewKey.rid mem) := by
  unfold Node.handleNewKey at h
  split at h
  · exact .inl (Option.some.inj h).symm
  · split at h
    · exact .inl (Option.some.inj h).symm
    · cases h
    · rename_i k hk
      refine .inr ⟨k, ?_, hk, (Option.some.inj h).symm⟩
      by_contra hc
      rw [NewKey.run_verify_refused rfl h24 hlt hc] at hk
      cases hk

theorem lastSent_append (hs : s'.sent = s.sent ++ [m]) :
    s'.lastSent a = if m.sender = a then some m else s.lastSent a := by
  unfold System.lastSent
  rw [hs, List.filter_append]
  by_cases h : m.sender = a
  · rw [if_pos h]
    simp [h]
  · rw [if_neg h]
    simp [h]

/-- A refresh by replica `i`. -/
theorem inv_refresh {s₀ : System} {rid : UInt64} {own : Key} {coins : Nat → Nat}
    (hi : Inv hash pair P n honest s₀ s) (hin : i < n)
    (h : s.step hash pair (.refresh i rid own keys coins) = some s') :
    Inv hash pair P n honest s₀ s' := by
  obtain ⟨⟨N', bs⟩, hr, rfl⟩ := Option.map_eq_some_iff.1 h
  obtain ⟨hN', hbuilt, hprin⟩ := refreshKeys_spec (hi.configured i hin) rfl hin hr
  refine ⟨fun j hj => ?_, fun m hm => ?_, fun a ha b hb hne => ?_, fun a ha b hb hne hon => ?_⟩
  · by_cases hji : j = i
    · subst hji
      simpa using hN'
    · simpa [hji] using hi.configured j hj
  · rcases List.mem_append.1 hm with hm | hm
    · exact hi.built m hm
    · rw [List.mem_singleton.1 hm]
      exact hbuilt
  · have hold := hi.inKey a ha b hb hne
    unfold InKeyFrom at hold ⊢
    rw [lastSent_append rfl]
    by_cases hai : a = i
    · subst hai
      rw [if_pos rfl]
      simp [hprin b (Ne.symm hne), hb]
    · rw [if_neg (Ne.symm hai)]
      simpa [hai] using hold
  · have hold := hi.outKey a ha b hb hne hon
    have hsame : ∀ {Ns : Nat → Node}, Ns = Function.update s.nodes i N' →
        ((Ns b).principals a).kout = ((s.nodes b).principals a).kout ∧
          ((Ns b).principals a).tstamp = ((s.nodes b).principals a).tstamp := by
      rintro _ rfl
      by_cases hbi : b = i
      · subst hbi
        rw [Function.update_self, hprin a hne, if_pos ha]
        exact ⟨rfl, rfl⟩
      · rw [Function.update_of_ne hbi]
        exact ⟨rfl, rfl⟩
    unfold OutKeyFrom at hold ⊢
    rw [(hsame rfl).1, (hsame rfl).2]
    exact hold.imp id fun ⟨m, hm, hrest⟩ => ⟨m, List.mem_append_left _ hm, hrest⟩

/-- A message changes no key for incoming messages. -/
theorem handle_kin {K : PrivateKey} (h24 : 24 ≤ size mem) (hlt : size mem < 2 ^ 31)
    (h : N.handleNewKey hash K mem = some N') :
    (N'.principals b).kin = (N.principals b).kin := by
  rcases handle_cases h24 hlt h with heq | ⟨k, -, -, heq⟩
  · rw [heq]
  · rw [heq, setOutKey_principals]
    split <;> rfl

theorem Configured.handle {K : PrivateKey} (hN : Configured pair P n N i) (h24 : 24 ≤ size mem)
    (hlt : size mem < 2 ^ 31) (h : N.handleNewKey hash K mem = some N') :
    Configured pair P n N' i := by
  rcases handle_cases h24 hlt h with heq | ⟨k, -, -, heq⟩
  · rw [heq]
    exact hN
  · rw [heq]
    exact hN.setOutKey

theorem Checked.sender_eq (h : NewKey.Checked hash N mem)
    (hN : Configured pair P n N b) (ha : a < n) (hid : a = (NewKey.sender mem).toNat) :
    NewKey.sender mem = a ∧ NewKey.signedOk hash N mem (N.principals a) (size mem) = true := by
  obtain ⟨p, hp, -, hs⟩ := h
  have hsender : NewKey.sender mem = a := by
    unfold Node.iToP at hp
    split at hp
    · omega
    · cases hp
  rw [hsender, hN.iToP ha] at hp
  obtain rfl := Option.some.inj hp
  exact ⟨hsender, hs⟩

/-- **A delivery to replica `b`**: if the key for an honest replica changes, it becomes the one in a
message that this replica has built. -/
theorem outKey_handle (hb : ∀ m ∈ s.sent, Built hash pair P n m)
    (hN : Configured pair P n (s.nodes b) b) (hbn : b < n)
    (ha : a < n) (hne : a ≠ b) (hon : honest a) (h24 : 24 ≤ size mem) (hlt : size mem < 2 ^ 31)
    (hg : Genuine hash pair n honest s b mem)
    (h : (s.nodes b).handleNewKey hash (pair b).priv mem = some N') :
    N'.principals a = (s.nodes b).principals a ∨
      ∃ m ∈ s.sent, m.sender = a ∧ (N'.principals a).tstamp = m.rid.toNat ∧
        (N'.principals a).kout = (m.keys b).1 := by
  rcases handle_cases h24 hlt h with heq | ⟨k, hc, hacc, heq⟩
  · exact .inl (by rw [heq])
  · rw [heq, setOutKey_principals]
    split
    · rename_i hnew
      obtain ⟨hsender, hs⟩ := Checked.sender_eq hc hN ha hnew.1
      obtain ⟨m, hm, hma, hslice⟩ := hg a ha hon hsender hs
      rw [hN.sigSize_eq, ← hma] at hslice
      have hkey := accepted_of_signed (hb m hm) hN hbn (by omega) hslice hc
      obtain ⟨hrid, -⟩ := SameSigned.fields (hb m hm) hN hslice
      have hk : k = some (m.keys b).1 := NewKey.Outcome.accepted.inj (hacc.symm.trans hkey)
      exact .inr ⟨m, hm, hma, hrid, by rw [hk]; rfl⟩
    · exact .inl rfl

theorem inv_deliver {s₀ : System} (hi : Inv hash pair P n honest s₀ s) (hjn : j < n)
    (hr : Received mem P 11 24) (hg : Genuine hash pair n honest s j mem)
    (h : s.step hash pair (.deliver j mem) = some s') : Inv hash pair P n honest s₀ s' := by
  obtain ⟨N', hh, rfl⟩ := Option.map_eq_some_iff.1 h
  obtain ⟨-, h24, -, hmax⟩ := hr.spec
  have hP := P.maxMessageSize_le
  have hal := alignedSize_lt P.maxMessageSize
  have hlt : size mem < 2 ^ 31 := by omega
  refine ⟨fun l hl => ?_, hi.built, fun a ha b hb hne => ?_, fun a ha b hb hne hon => ?_⟩
  · by_cases hlj : l = j
    · subst hlj
      simpa using (hi.configured l hl).handle h24 hlt hh
    · simpa [hlj] using hi.configured l hl
  · have hold := hi.inKey a ha b hb hne
    unfold InKeyFrom at hold ⊢
    show ((Function.update s.nodes j N' a).principals b).kin = (s.lastSent a).elim _ _
    by_cases haj : a = j
    · subst haj
      rw [Function.update_self, handle_kin h24 hlt hh]
      exact hold
    · rw [Function.update_of_ne haj]
      exact hold
  · have hold := hi.outKey a ha b hb hne hon
    unfold OutKeyFrom at hold ⊢
    dsimp only
    by_cases hbj : b = j
    · subst hbj
      rw [Function.update_self]
      rcases outKey_handle hi.built (hi.configured b hb) hb ha hne hon h24 hlt hg hh with heq | hnew
      · rw [heq]
        exact hold
      · exact .inr hnew
    · simpa [hbj] using hold

theorem inv_run {s₀ : System} {es : List Event} (h₀ : ∀ i < n, Configured pair P n (s₀.nodes i) i)
    (hsent : s₀.sent = [])
    (hm : Run.Meets (System.step hash pair) (Event.Possible hash pair P n honest) s₀ es)
    (hr : Run.run (System.step hash pair) s₀ es = some s) : Inv hash pair P n honest s₀ s := by
  refine Run.invariant (I := Inv hash pair P n honest s₀) (fun s e s' hi hp hs => ?_) ?_ hm hr
  · cases e with
    | refresh i rid own fresh coins => exact inv_refresh hi hp hs
    | deliver j mem => exact inv_deliver hi hp.1 hp.2.1 hp.2.2 hs
  · refine ⟨h₀, fun m hm => ?_, fun a _ b _ _ => ?_, fun a _ b _ _ _ => .inl ⟨rfl, rfl⟩⟩
    · rw [hsent] at hm
      cases hm
    · unfold InKeyFrom System.lastSent
      rw [hsent]
      rfl

/-! ## The system agrees -/

/-- **What two replicas agree on** in a state `s`, reached from `s₀`. -/
structure Agreed (hash : List UInt8 → Digest) (hmac : List UInt8 → List UInt8 → Digest)
    (pair : Nat → KeyPair) (P : Params) (honest : Nat → Prop) (s₀ s : System) (a b : Nat) :
      Prop where
  /-- The key for incoming messages is the one of the last message built. -/
  inKey : InKeyFrom s₀ s a b
  /-- The key for outgoing messages is the one of a message built, whatever was delivered. -/
  outKey : honest a → OutKeyFrom s₀ s a b
  /-- Every message built so far still sets this key, if it is newer than the last one. -/
  verified : ∀ m ∈ s.sent, m.sender = a → ∀ stale,
    ((s.nodes b).principals a).tstamp < m.rid.toNat → ∃ N',
      (s.nodes b).handleNewKey hash (pair b).priv (Memory.ofBytes m.bytes stale) = some N' ∧
      (N'.principals a).kout = (m.keys b).1 ∧ (N'.principals a).tstamp = m.rid.toNat
  /-- A message that is not newer changes nothing. -/
  stale : ∀ mem, Received mem P 11 24 → NewKey.sender mem = a →
    NewKey.rid mem ≤ ((s.nodes b).principals a).tstamp →
    (s.nodes b).handleNewKey hash (pair b).priv mem = some (s.nodes b)
  /-- The code that `a` generates for `b` is where `b` looks for it. -/
  offset : ∀ mac : Principal → List UInt8, (∀ p, (mac p).length = 32) → ∃ pre post,
    (s.nodes a).genAuth mac = pre ++ (mac ((s.nodes a).principals b) ++ post) ∧
      (pre.length : Int) = (s.nodes b).macOffset a
  /-- With matching keys `b` accepts the authenticators of `a`. -/
  accepts : ((s.nodes b).principals a).kin = some ((s.nodes a).principals b).kout →
    ∀ (mem : Memory) (src dest : Int) (len : Nat),
    mem.Holds dest ((s.nodes a).genAuthOut hmac (mem.slice src len)) →
      ((s.nodes b).verifyAuthIn hmac a src len dest).run mem = true

/-- **Keys and authenticators agree** for every two replicas, after every run in which they choose
keys and get each other's messages. -/
theorem keys_agree {hmac : List UInt8 → List UInt8 → Digest} {s₀ : System} {es : List Event}
    (h₀ : ∀ i < n, Configured pair P n (s₀.nodes i) i) (hsent : s₀.sent = [])
    (hm : Run.Meets (System.step hash pair) (Event.Possible hash pair P n honest) s₀ es)
    (hr : Run.run (System.step hash pair) s₀ es = some s) (ha : a < n) (hb : b < n) (hne : a ≠ b) :
    Agreed hash hmac pair P honest s₀ s a b := by
  have hi := inv_run h₀ hsent hm hr
  have hNa := hi.configured a ha
  have hNb := hi.configured b hb
  refine ⟨hi.inKey a ha b hb hne, hi.outKey a ha b hb hne,
    fun m hm hma stale hlt => ?_, fun mem hrec hid hold => ?_, fun mac hmac => ?_,
    fun hkey mem src dest len hmem => ?_⟩
  · subst hma
    obtain ⟨hsame, hsig⟩ := signed_ofBytes (hi.built m hm) hNb (Ne.symm hne) stale
    refine ⟨_, handle_of_signed (hi.built m hm) hNb hb (Ne.symm hne) hsame hsig, ?_⟩
    rw [setOutKey_principals, if_pos ⟨rfl, hlt⟩]
    exact ⟨rfl, rfl⟩
  · exact handle_stale hNb hrec ha hid hold
  · exact genAuth_split hNa.id hNb.id (hNa.replicas ▸ hb) hne mac hmac
  · exact verifyAuthIn_genAuthOut hNa.id hNb.id (hNa.replicas ▸ hb) hne (hNb.iToP ha) hkey hmem

/-- A key pair that hides nothing, for messages of 32 bytes. -/
def plainPair : KeyPair where
  pub := ⟨32, by decide, fun d s => s == d.bytes, fun _ k => if k.length = 32 then some k else none⟩
  priv := ⟨32, some, Digest.bytes⟩
  size_eq := rfl
  length_encrypt := by
    intro coins k c h
    dsimp only at h
    split at h
    · obtain rfl := Option.some.inj h
      assumption
    · cases h
  decrypt_encrypt := by
    intro coins k c h
    dsimp only at h
    split at h
    · exact h.symm ▸ rfl
    · cases h
  length_sign := Digest.length_bytes
  verify_sign d := beq_self_eq_true _

/-- Four replicas without keys. -/
def plainNode (i : Nat) : Node where
  P := .default
  id := i
  numReplicas := 4
  numPrincipals := 4
  principals _ := ⟨plainPair.pub, none, [], 0⟩
  v := 0
  curPrimary := 0
  replicas_pos := Node.four_pos
  replicas_le := Node.four_le

def plainSystem : System := ⟨plainNode, []⟩

/-- The key of 32 equal bytes. -/
def plainKey (b : Nat) : Key := ⟨List.replicate 32 (UInt8.ofNat b), by simp⟩

def plainRefresh : Event := .refresh 0 1 (plainKey 9) plainKey fun _ => 0

/-- The message of this refresh. -/
def plainMessage : Memory := Memory.ofBytes
  (((plainNode 0).refreshKeys (fun _ => 0) plainPair.priv 1 (plainKey 9) plainKey
    fun _ => 0).elim [] Prod.snd) fun _ => 0

theorem keys_agree_once : ∃ s, Run.run (System.step (fun _ => 0)
      fun _ => plainPair) plainSystem [plainRefresh, .deliver 1 plainMessage] = some s ∧
    Agreed (fun _ => 0) (fun _ _ => 0) (fun _ => plainPair)
      .default (fun _ => True) plainSystem s 0 1 := by
  have hsome : (Run.run (System.step (fun _ => 0) fun _ => plainPair) plainSystem [plainRefresh,
    .deliver 1 plainMessage]).isSome = true := by
    decide +kernel
  obtain ⟨s, hs⟩ := Option.isSome_iff_exists.1 hsome
  have hm : Run.Meets (System.step (fun _ => 0) fun _ => plainPair)
      (Event.Possible (fun _ => 0) (fun _ => plainPair) .default 4
        fun _ => True) plainSystem [plainRefresh, .deliver 1 plainMessage] := by
    refine ⟨show 0 < 4 by decide, fun s₁ h₁ =>
      ⟨⟨by decide, by decide +kernel, fun i _ _ hi _ => ?_⟩, fun _ _ => trivial⟩⟩
    simp only [System.step, plainRefresh, Option.map_eq_some_iff] at h₁
    obtain ⟨⟨N', bs⟩, hr, rfl⟩ := h₁
    have hid : NewKey.sender plainMessage = 0 := by decide +kernel
    have h0 : ((0 : Nat) : Int) = i := hid.symm.trans hi
    obtain rfl : 0 = i := by exact_mod_cast h0
    refine ⟨_, List.mem_singleton_self _, rfl, ?_⟩
    have hbs : bs = ((plainNode 0).refreshKeys (fun _ => 0) plainPair.priv 1 (plainKey 9) plainKey
      fun _ => 0).elim [] Prod.snd := by
      rw [show (plainNode 0).refreshKeys (fun _ => 0) plainPair.priv
        1 (plainKey 9) plainKey (fun _ => 0) = some (N', bs) from hr]
      rfl
    have hsigned : plainMessage.slice 0 ((size plainMessage).toNat - plainPair.sigSize) =
      Sent.signed (fun _ => plainPair)
        ⟨0, 1, plainKey, ((plainNode 0).refreshKeys (fun _ => 0)
          plainPair.priv 1 (plainKey 9) plainKey fun _ => 0).elim [] Prod.snd⟩ := by
      decide +kernel
    have hother : ((Function.update plainSystem.nodes 0 N' 1).principals 0).sigSize =
      plainPair.sigSize := by
      rw [Function.update_of_ne (by decide)]
      rfl
    dsimp only
    rw [hbs, hother]
    exact hsigned
  exact ⟨s, hs, keys_agree (fun i _ => ⟨rfl, rfl, rfl, le_rfl, fun _ => rfl⟩)
    rfl hm hs (by decide) (by decide) (by decide)⟩

end TinyBFT
