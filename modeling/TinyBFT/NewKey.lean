import TinyBFT.Principal

/-!
# The check of a new-key message (`New_key.cc`, `Node.h`, `Node.cc`, `rsa_private_key.cc`)

Behind the header of 24 bytes lies a key for each replica but the sender: the length of the key and
that of its ciphertext, four bytes each, and the ciphertext. A signature of all this ends the
message.

| here | there |
| --- | --- |
| `sender`, `rid`   | fields of `New_key_rep` (`New_key.h:16-25`) |
| `cipherSize`      | `cipher_size` (`Node.h:277-290`) |
| `PrivateKey`      | `RsaPrivateKey`; `decrypt` is `mbedtls_rsa_pkcs1_decrypt`, `sign` is `mbedtls_rsa_pkcs1_sign` |
| `decrypt`         | `decrypt` (`Node.cc:386-408`) |
| `Cursor`          | `dst` and `dst_len` |
| `keysLoop`, `verify` | `verify` (`New_key.cc:12-53`), without `set_out_key`; also the cursors that the loop has had |

`cipher_size` compares the length of the ciphertext with what is left of the message, and its caller
goes on by eight bytes more (`verify_keysInBounds_iff`).
-/

namespace TinyBFT

open Reads Wire

structure PrivateKey where
  size : Nat
  decrypt : List UInt8 → Option (List UInt8)
  sign : Digest → List UInt8

namespace NewKey

section Fields

variable (mem : Memory)

def rid : Nat := Bytes.toNat (mem.slice 8 8)

def sender : Int := int mem 16

/-- The length of the ciphertext of a key. -/
def cipherLen (a : Int) : Nat := Bytes.toNat (mem.slice (a + 4) 4)

/-- Where the key for replica `i` is. -/
def keyAt (sender : Int) : Nat → Int
  | 0 => 24
  | i + 1 =>
    if (i : Int) = sender then
      keyAt sender i else keyAt sender i + 8 + cipherLen mem (keyAt sender i)

end Fields

/-- 0 stands for no ciphertext. -/
def cipherSize (dst : Int) (dstLen : Nat) : Reads Int :=
  if dstLen < 8 then pure 0
  else do
    let c ← bytes (dst + 4) 4
    if Bytes.toNat c ≤ dstLen then pure (toInt (Bytes.toNat c + 8)) else pure 0

inductive Decrypted where
  | refused
  | asserted
  | key (k : List UInt8)
deriving DecidableEq

/-- A ciphertext of the wrong length and one that does not decrypt fail an assertion. -/
def decrypt (K : PrivateKey) (src : Int) (srcLen dstLen : Nat) : Reads Decrypted :=
  if srcLen < 8 then pure .refused
  else do
    let pl ← bytes src 4
    let cl ← bytes (src + 4) 4
    if dstLen < Bytes.toNat pl ∨ srcLen - 8 < Bytes.toNat cl then pure .refused
    else if Bytes.toNat cl ≠ K.size then pure .asserted
    else do
      let c ← bytes (src + 8) K.size
      match K.decrypt c with
      | none => pure .asserted
      | some k =>
        if k.length ≤ dstLen ∧ Bytes.toNat pl = k.length then pure (.key k) else pure .asserted

structure Cursor where
  dst : Int
  len : Nat
deriving DecidableEq

/-- The length has no sign. -/
def Cursor.advance (c : Cursor) (csize : Int) : Cursor :=
  ⟨c.dst + csize, unsigned64 (c.len - csize)⟩

/-- How a check ends. An accepted message has a key for this replica, unless `k` has not been
written. -/
inductive Outcome where
  | refused
  | asserted
  | accepted (k : Option (List UInt8))
deriving DecidableEq

/-- The key of this replica. -/
def ownKey (K : PrivateKey) (c : Cursor) : Reads Decrypted := do
  let d ← decrypt K c.dst (c.len % 2 ^ 32) 32
  match d with
  | .key k => if k.length = 32 then pure (.key k) else pure .refused
  | d => pure d

/-- The loop over the replicas from `i` on, as many as are left. `cipher_size` and `decrypt` take
the length as an `unsigned`. -/
def keysLoop (me : Nat) (K : PrivateKey) (sender : Int) :
    Nat → Nat → Cursor → Option (List UInt8) → Reads (Outcome × List Cursor)
  | 0, _, c, k => pure (.accepted k, [c])
  | left + 1, i, c, k =>
    if (i : Int) = sender then keysLoop me K sender left (i + 1) c k
    else do
      let csize ← cipherSize c.dst (c.len % 2 ^ 32)
      if csize = 0 then pure (.refused, [c])
      else if i = me then do
        let d ← ownKey K c
        match d with
        | .refused => pure (.refused, [c])
        | .asserted => pure (.asserted, [c])
        | .key k' => do
          let r ← keysLoop me K sender left (i + 1) (c.advance csize) (some k')
          pure (r.1, c :: r.2)
      else do
        let r ← keysLoop me K sender left (i + 1) (c.advance csize) k
        pure (r.1, c :: r.2)

variable (hash : List UInt8 → Digest) (N : Node) (K : PrivateKey)

/-- `verify` of a new message of `sz` bytes. -/
def verifySigned (id : Int) (p : Principal) (sz : Int) : Reads (Outcome × List Cursor) :=
  let len := (sz % 2 ^ 32).toNat - p.sigSize
  if (sz % 2 ^ 32).toNat < p.sigSize then pure (.refused, [])
  else do
    let ok ← N.verifySignature hash id p 0 len len false
    if ok = false then pure (.refused, [])
    else keysLoop N.id K id N.numReplicas 0 ⟨24, unsigned64 (sz - 24)⟩ none

def verify : Reads (Outcome × List Cursor) := do
  let id ← bytes 16 4
  match N.iToP (Bytes.toInt id) with
  | none => pure (.refused, [])
  | some p => do
    let rid ← bytes 8 8
    if Bytes.toNat rid ≤ p.tstamp then pure (.refused, [])
    else do
      let sz ← bytes 4 4
      verifySigned hash N K (Bytes.toInt id) p (Bytes.toInt sz)

section

variable (mem : Memory)

/-- The signature at the end of a message of `sz` bytes. -/
def signedOk (p : Principal) (sz : Int) : Bool :=
  decide (p.sigSize ≤ sz.toNat) &&
    (N.verifySignature hash (sender mem) p 0 (sz.toNat - p.sigSize)
      ((sz.toNat - p.sigSize : Nat) : Int) false).run mem

/-- The sender is known, the message is new and signed. -/
def Checked : Prop :=
  ∃ p, N.iToP (sender mem) = some p ∧ p.tstamp < rid mem ∧ signedOk hash N mem p (size mem) = true

/-- A key that is in the message, with its lengths. -/
def KeyInside (i : Nat) : Prop :=
  keyAt mem (sender mem) i + 8 + cipherLen mem (keyAt mem (sender mem) i) ≤ size mem

instance (i : Nat) : Decidable (KeyInside mem i) := inferInstanceAs (Decidable (_ ≤ _))

/-- The key for this replica decrypts to `k`. -/
def DecryptsTo (i : Nat) (k : List UInt8) : Prop :=
  K.decrypt (mem.slice (keyAt mem (sender mem) i + 8) (cipherLen mem (keyAt mem (sender mem) i))) =
    some k ∧ k.length = 32

/-- **What parsing in bounds means**: only the message is read, the cursor and the remaining length
lead to its end at every step, and a message is accepted only with all keys in it and that of this
replica decrypted. -/
structure InBounds : Prop where
  reads : (verify hash N K).Within mem 0 (size mem)
  cursors : ∀ c ∈ ((verify hash N K).run mem).2, 24 ≤ c.dst ∧ c.dst + c.len = size mem
  keys : ∀ k, ((verify hash N K).run mem).1 = .accepted k →
    (∀ i < N.numReplicas, (i : Int) ≠ sender mem → KeyInside mem i) ∧ ∃ key,
      k = some key ∧ DecryptsTo K mem N.id key

/-- The cursor in front of the key for replica `i`, with all keys before it in the message. -/
def cursorAt (i : Nat) : Cursor :=
  ⟨keyAt mem (sender mem) i, (size mem - keyAt mem (sender mem) i).toNat⟩

/-- The loop goes on behind the key for replica `i`. -/
def Passed (i : Nat) : Prop :=
  KeyInside mem i ∧ (i = N.id → ∃ k, (ownKey K (cursorAt mem i)).run mem = .key k)

/-- The ciphertext alone is not longer than what is left of the message, but with the two lengths in
front of it is. -/
def Overrun (i : Nat) : Prop := keyAt mem (sender mem) i + 8 ≤ size mem ∧
  keyAt mem (sender mem) i + cipherLen mem (keyAt mem (sender mem) i) ≤ size mem ∧ ¬ KeyInside mem i

instance (i : Nat) : Decidable (Overrun mem i) := inferInstanceAs (Decidable (_ ∧ _ ∧ _))

/-- No key for another replica that the loop comes to ends behind the message by so little. -/
def NoOverrun : Prop :=
  Checked hash N mem → ∀ i < N.numReplicas, (i : Int) ≠ sender mem → i ≠ N.id →
  (∀ j < i, (j : Int) ≠ sender mem → Passed N K mem j) → ¬ Overrun mem i

end

variable {hash N K} {mem : Memory} {a hi : Int} {len left i : Nat} {c : Cursor}
    {k : Option (List UInt8)}

/-! ## One key -/

theorem run_cipherSize (h : len < 2 ^ 31 - 8) :
    (cipherSize a len).run mem = if 8 ≤ len ∧ cipherLen mem a ≤ len then
      (cipherLen mem a : Int) + 8 else 0 := by
  have hcl : Bytes.toNat (mem.slice (a + 4) 4) = cipherLen mem a := rfl
  unfold cipherSize
  by_cases h8 : len < 8
  · rw [if_pos h8, if_neg (by omega), run_pure]
  · rw [if_neg h8, run_bytes_bind, hcl]
    by_cases hle : cipherLen mem a ≤ len
    · rw [if_pos hle, if_pos ⟨by omega, hle⟩, run_pure]
      exact toInt_eq_self (by omega) (by omega)
    · rw [if_neg hle, if_neg (fun hn => hle hn.2), run_pure]

theorem within_cipherSize (h0 : 0 ≤ a) (h : a + len ≤ hi) : (cipherSize a len).Within mem 0 hi := by
  unfold cipherSize
  simp only [within_ite, within_bytes_bind, within_pure, implies_true, and_self, and_true, true_and]
  omega

theorem within_decrypt {dstLen : Nat} (h0 : 0 ≤ a) (h : a + len ≤ hi) :
    (decrypt K a len dstLen).Within mem 0 hi := by
  unfold decrypt
  rw [within_ite]
  refine ⟨fun _ => within_pure, fun h8 => ?_⟩
  rw [within_bytes_bind, within_bytes_bind]
  refine ⟨fun _ => by omega, fun _ => by omega, ?_⟩
  rw [within_ite]
  refine ⟨fun _ => within_pure, fun hlen => ?_⟩
  rw [within_ite]
  refine ⟨fun _ => within_pure, fun hsize => ?_⟩
  rw [within_bytes_bind]
  refine ⟨fun _ => by omega, ?_⟩
  cases K.decrypt (mem.slice (a + 8) K.size) with
  | none => exact within_pure
  | some k => exact within_ite.2 ⟨fun _ => within_pure, fun _ => within_pure⟩

theorem within_ownKey (h0 : 0 ≤ c.dst) (h : c.dst + c.len ≤ hi) (hlen : c.len < 2 ^ 32) :
    (ownKey K c).Within mem 0 hi := by
  unfold ownKey
  rw [within_bind, Nat.mod_eq_of_lt hlen]
  refine ⟨within_decrypt h0 h, ?_⟩
  cases (decrypt K c.dst c.len 32).run mem with
  | key k => exact within_ite.2 ⟨fun _ => within_pure, fun _ => within_pure⟩
  | refused => exact within_pure
  | asserted => exact within_pure

theorem run_decrypt_key {dstLen : Nat} {k : List UInt8} :
    (decrypt K a len dstLen).run mem = .key k ↔
    8 ≤ len ∧ Bytes.toNat (mem.slice a 4) = k.length ∧ k.length ≤ dstLen ∧
      cipherLen mem a ≤ len - 8 ∧ cipherLen mem a = K.size ∧
      K.decrypt (mem.slice (a + 8) (cipherLen mem a)) = some k := by
  have hcl : Bytes.toNat (mem.slice (a + 4) 4) = cipherLen mem a := rfl
  unfold decrypt
  by_cases h8 : len < 8
  · rw [if_pos h8, run_pure]
    exact ⟨nofun, fun h => absurd h.1 (by omega)⟩
  rw [if_neg h8, run_bytes_bind, run_bytes_bind, hcl]
  by_cases hle : dstLen < Bytes.toNat (mem.slice a 4) ∨ len - 8 < cipherLen mem a
  · rw [if_pos hle, run_pure]
    exact ⟨nofun, fun ⟨_, h1, h2, h3, _⟩ => absurd hle (by omega)⟩
  rw [if_neg hle]
  by_cases hs : cipherLen mem a = K.size
  · rw [if_neg (not_not.2 hs), run_bytes_bind, hs]
    cases K.decrypt (mem.slice (a + 8) K.size) with
    | none => exact ⟨nofun, fun h => nomatch h.2.2.2.2.2⟩
    | some k' =>
      by_cases hk : k'.length ≤ dstLen ∧ Bytes.toNat (mem.slice a 4) = k'.length
      · simp only [if_pos hk, run_pure, Decrypted.key.injEq, Option.some.injEq]
        constructor
        · rintro rfl
          exact ⟨by omega, hk.2, hk.1, by omega, trivial, rfl⟩
        · exact fun h => h.2.2.2.2.2
      · simp only [if_neg hk, run_pure, Option.some.injEq]
        refine ⟨nofun, ?_⟩
        rintro ⟨-, h1, h2, -, -, rfl⟩
        exact absurd ⟨h2, h1⟩ hk
  · rw [if_pos hs, run_pure]
    exact ⟨nofun, fun h => absurd h.2.2.2.2.1 hs⟩

/-- A key of 32 bytes is found where the ciphertext is in the message and decrypts to it. -/
theorem run_ownKey {k : List UInt8} (hlen : c.len < 2 ^ 32) : (ownKey K c).run mem = .key k ↔
    8 + cipherLen mem c.dst ≤ c.len ∧ Bytes.toNat (mem.slice c.dst 4) = 32 ∧
      cipherLen mem c.dst = K.size ∧
      K.decrypt (mem.slice (c.dst + 8) (cipherLen mem c.dst)) = some k ∧ k.length = 32 := by
  have hd : ∀ k, (decrypt K c.dst c.len 32).run mem = .key k ↔ _ := fun k => run_decrypt_key
  -- no other outcome of the decryption leaves such a ciphertext behind
  have hfull : 8 + cipherLen mem c.dst ≤ c.len ∧ Bytes.toNat (mem.slice c.dst 4) = 32 ∧
    cipherLen mem c.dst = K.size ∧
      K.decrypt (mem.slice (c.dst + 8) (cipherLen mem c.dst)) = some k ∧ k.length = 32 →
      (decrypt K c.dst c.len 32).run mem = .key k := by
    rintro ⟨h1, h2, h3, h4, h5⟩
    exact (hd k).2 ⟨by omega, by omega, by omega, by omega, h3, h4⟩
  unfold ownKey
  rw [run_bind, Nat.mod_eq_of_lt hlen]
  cases hrun : (decrypt K c.dst c.len 32).run mem with
  | key k' =>
    obtain ⟨h8, hpl, hle, hcl, hs, hdec⟩ := (hd k').1 hrun
    by_cases hk : k'.length = 32
    · simp only [if_pos hk, run_pure, Decrypted.key.injEq]
      constructor
      · rintro rfl
        exact ⟨by omega, by omega, hs, hdec, hk⟩
      · rintro ⟨-, -, -, hdec', -⟩
        exact Option.some.inj (hdec.symm.trans hdec')
    · simp only [if_neg hk, run_pure]
      refine ⟨nofun, fun h => ?_⟩
      obtain rfl := Decrypted.key.inj (hrun.symm.trans (hfull h))
      exact absurd h.2.2.2.2 hk
  | refused => exact ⟨nofun, fun h => nomatch hrun.symm.trans (hfull h)⟩
  | asserted => exact ⟨nofun, fun h => nomatch hrun.symm.trans (hfull h)⟩

/-! ## The loop -/

/-- A cursor with its remaining length leads to the end of the message. -/
def Cursor.Good (mem : Memory) (c : Cursor) : Prop := 24 ≤ c.dst ∧ c.dst + c.len = size mem

/-- Only the message is read, and all cursors are good. -/
def Safe (mem : Memory) (p : Reads (Outcome × List Cursor)) : Prop :=
  p.Within mem 0 (size mem) ∧ ∀ c ∈ (p.run mem).2, c.Good mem

theorem safe_pure {o : Outcome} {cs : List Cursor} :
    Safe mem (pure (o, cs)) ↔ ∀ c ∈ cs, c.Good mem := by simp [Safe]

theorem safe_bind {α : Type} {p : Reads α} {f : α → Reads (Outcome × List Cursor)}
    (h : p.Within mem 0 (size mem)) :
    Safe mem (p >>= f) ↔ Safe mem (f (p.run mem)) := by
  unfold Safe
  rw [within_bind, run_bind]
  exact ⟨fun hs => ⟨hs.1.2, hs.2⟩, fun hs => ⟨⟨h, hs.1⟩, hs.2⟩⟩

theorem safe_cons {p : Reads (Outcome × List Cursor)} :
    Safe mem (p >>= fun r => pure (r.1, c :: r.2)) ↔ c.Good mem ∧ Safe mem p := by
  unfold Safe
  rw [within_bind, run_bind, run_pure]
  simp only [within_pure, and_true, List.forall_mem_cons]
  exact and_left_comm

theorem head_keysLoop {me : Nat} {s : Int} :
    ∃ cs, ((keysLoop me K s left i c k).run mem).2 = c :: cs := by
  induction left generalizing i with
  | zero => exact ⟨[], rfl⟩
  | succ left ih =>
    unfold keysLoop
    by_cases hs : (i : Int) = s
    · rw [if_pos hs]
      exact ih
    · rw [if_neg hs, run_bind]
      by_cases h0 : (cipherSize c.dst (c.len % 2 ^ 32)).run mem = 0
      · rw [if_pos h0]
        exact ⟨[], rfl⟩
      · rw [if_neg h0]
        by_cases hme : i = me
        · rw [if_pos hme, run_bind]
          cases (ownKey K c).run mem with
          | refused => exact ⟨[], rfl⟩
          | asserted => exact ⟨[], rfl⟩
          | key k' => exact ⟨_, by rw [run_bind]; rfl⟩
        · rw [if_neg hme, run_bind]
          exact ⟨_, rfl⟩

theorem le_keyAt (s : Int) (i : Nat) : 24 ≤ keyAt mem s i := by
  induction i with
  | zero => exact le_rfl
  | succ i ih =>
    unfold keyAt
    split <;> omega

/-- Behind a key that is in the message the cursor is as good as in front of it. -/
theorem advance_cursorAt (hs : (i : Int) ≠ sender mem) (h : KeyInside mem i) :
    (cursorAt mem i).advance (cipherLen mem (keyAt mem (sender mem) i) + 8) =
      cursorAt mem (i + 1) := by
  have hnext : keyAt mem (sender mem) (i + 1) = keyAt mem (sender mem) i +
    8 + cipherLen mem (keyAt mem (sender mem) i) := if_neg hs
  have hb := @int_bounds mem 4
  have h24 := @le_keyAt mem (sender mem) i
  have hsize : size mem = int mem 4 := rfl
  unfold KeyInside at h
  unfold Cursor.advance cursorAt
  rw [hnext]
  dsimp only
  generalize keyAt mem (sender mem) i = a at h h24 ⊢
  generalize size mem = sz at h hsize ⊢
  congr 1
  · omega
  · unfold unsigned64
    omega

/-- Behind a key that is not, it is behind the message, and the length that remains has wrapped. -/
theorem not_good_advance (h : Overrun mem i) :
    ¬ ((cursorAt mem i).advance (cipherLen mem (keyAt mem (sender mem) i) + 8)).Good mem := by
  obtain ⟨h8, hle, hin⟩ := h
  unfold KeyInside at hin
  unfold Cursor.Good Cursor.advance unsigned64 cursorAt
  dsimp only
  generalize keyAt mem (sender mem) i = a at h8 hle hin ⊢
  generalize size mem = sz at h8 hle hin ⊢
  omega

/-- The next pass of the loop starts there. -/
theorem not_good_keysLoop {me : Nat} {s : Int} (h : Overrun mem i) :
    ¬ ∀ c' ∈ ((keysLoop me K s left (i + 1)
    ((cursorAt mem i).advance (cipherLen mem (keyAt mem (sender mem) i) + 8)) k).run mem).2,
      c'.Good mem := by
  intro hcs
  obtain ⟨cs, hhead⟩ : ∃ cs, ((keysLoop me K s left (i + 1)
    ((cursorAt mem i).advance (cipherLen mem (keyAt mem (sender mem) i) + 8)) k).run mem).2 =
      _ :: cs := head_keysLoop
  exact not_good_advance h (hcs _ (hhead ▸ List.mem_cons_self))

theorem good_cursorAt (hle : keyAt mem (sender mem) i ≤ size mem) : (cursorAt mem i).Good mem := by
  have := @le_keyAt mem (sender mem) i
  unfold Cursor.Good cursorAt
  dsimp only
  omega

/-- What `cipher_size` compares. -/
theorem fits_iff :
    8 ≤ (size mem - keyAt mem (sender mem) i).toNat ∧
        cipherLen mem (keyAt mem (sender mem) i) ≤ (size mem - keyAt mem (sender mem) i).toNat ↔
      keyAt mem (sender mem) i + 8 ≤ size mem ∧
        keyAt mem (sender mem) i + cipherLen mem (keyAt mem (sender mem) i) ≤ size mem := by
  generalize keyAt mem (sender mem) i = a
  generalize size mem = sz
  omega

/-- A statement about the keys from `i` on, up to the first where the loop ends. -/
theorem forall_passed_succ {P Q : Nat → Prop} {s : Int} :
    (∀ j, i ≤ j → j < i + (left + 1) → (j : Int) ≠ s →
    (∀ l, i ≤ l → l < j → (l : Int) ≠ s → Q l) → P j) ↔
    ((i : Int) ≠ s → P i) ∧ (((i : Int) ≠ s → Q i) → ∀ j,
        i + 1 ≤ j → j < i + 1 + left → (j : Int) ≠ s →
      (∀ l, i + 1 ≤ l → l < j → (l : Int) ≠ s → Q l) → P j) := by
  constructor
  · intro h
    refine ⟨fun hs => h i le_rfl (by omega) hs fun l _ _ => by omega, fun hq j hij hj hs hl => ?_⟩
    refine h j (by omega) (by omega) hs fun l hil hlj hls => ?_
    rcases Nat.eq_or_lt_of_le hil with rfl | hil
    · exact hq hls
    · exact hl l hil hlj hls
  · rintro ⟨h1, h2⟩ j hij hj hs hl
    rcases Nat.eq_or_lt_of_le hij with rfl | hij
    · exact h1 hs
    · exact h2 (hl i le_rfl hij) j hij (by omega) hs fun l hil => hl l (by omega)

/-- **One pass of the loop after the other**: all is safe exactly when no key that the loop comes to
overruns the message. -/
theorem safe_keysLoop (hsize : size mem < 2 ^ 31 - 8) (hle : keyAt mem (sender mem) i ≤ size mem) :
    Safe mem (keysLoop N.id K (sender mem) left i (cursorAt mem i) k) ↔
      ∀ j, i ≤ j → j < i + left → (j : Int) ≠ sender mem →
        (∀ l, i ≤ l → l < j → (l : Int) ≠ sender mem → Passed N K mem l) →
        (j ≠ N.id → ¬ Overrun mem j) := by
  induction left generalizing i k with
  | zero =>
    unfold keysLoop
    rw [safe_pure]
    exact ⟨fun _ j _ _ => by omega, fun _ c hc => by
      rw [List.mem_singleton.1 hc]
      exact good_cursorAt hle⟩
  | succ left ih =>
    have hgood := good_cursorAt hle
    have h24 := @le_keyAt mem (sender mem) i
    have hlen : (cursorAt mem i).len = (size mem - keyAt mem (sender mem) i).toNat := rfl
    have hdst : (cursorAt mem i).dst = keyAt mem (sender mem) i := rfl
    have hmod : (cursorAt mem i).len % 2 ^ 32 = (cursorAt mem i).len := Nat.mod_eq_of_lt (by omega)
    rw [forall_passed_succ]
    unfold keysLoop
    by_cases hs : (i : Int) = sender mem
    · -- the sender has no key in its message
      have hkey : keyAt mem (sender mem) (i + 1) = keyAt mem (sender mem) i := if_pos hs
      have hnext : cursorAt mem (i + 1) = cursorAt mem i := by rw [cursorAt, hkey, cursorAt]
      rw [if_pos hs, ← hnext, ih (by omega)]
      exact ⟨fun h => ⟨fun hn => absurd hs hn, fun _ => h⟩, fun h => h.2 fun hn => absurd hs hn⟩
    rw [if_neg hs, hmod, safe_bind (within_cipherSize (by omega) (by omega)),
      run_cipherSize (by omega), hdst, hlen]
    have hnext : keyAt mem (sender mem) (i + 1) = keyAt mem (sender mem) i +
      8 + cipherLen mem (keyAt mem (sender mem) i) := if_neg hs
    have hstop : Safe mem (pure (.refused, [cursorAt mem i])) := safe_pure.2 fun c hc => by
      rw [List.mem_singleton.1 hc]
      exact hgood
    by_cases hfits : 8 ≤ (size mem - keyAt mem (sender mem) i).toNat ∧
        cipherLen mem (keyAt mem (sender mem) i) ≤ (size mem - keyAt mem (sender mem) i).toNat
    · rw [if_pos hfits, if_neg (by omega)]
      by_cases hme : i = N.id
      · rw [if_pos hme, safe_bind (within_ownKey (by omega) (by omega) (by omega))]
        cases hown : (ownKey K (cursorAt mem i)).run mem with
        | refused =>
          refine ⟨fun _ => ⟨fun _ hn => absurd hme hn, fun hq => ?_⟩, fun _ => hstop⟩
          obtain ⟨k', hk'⟩ := (hq hs).2 hme
          rw [hown] at hk'
          cases hk'
        | asserted =>
          refine ⟨fun _ => ⟨fun _ hn => absurd hme hn, fun hq => ?_⟩, fun _ => ?_⟩
          · obtain ⟨k', hk'⟩ := (hq hs).2 hme
            rw [hown] at hk'
            cases hk'
          · exact safe_pure.2 (safe_pure.1 hstop)
        | key k' =>
          have hin : KeyInside mem i := by
            have h8 := ((run_ownKey (by omega)).1 hown).1
            rw [hdst, hlen] at h8
            unfold KeyInside
            omega
          rw [safe_cons, advance_cursorAt hs hin, ih (by unfold KeyInside at hin; omega)]
          exact ⟨fun h => ⟨fun _ hn => absurd hme hn, fun _ => h.2⟩,
            fun h => ⟨hgood, h.2 fun _ => ⟨hin, fun _ => ⟨k', hown⟩⟩⟩⟩
      · rw [if_neg hme, safe_cons]
        by_cases hin : KeyInside mem i
        · rw [advance_cursorAt hs hin, ih (by unfold KeyInside at hin; omega)]
          exact ⟨fun h => ⟨fun _ _ ho => ho.2.2 hin, fun _ => h.2⟩,
            fun h => ⟨hgood, h.2 fun _ => ⟨hin, fun hn => absurd hn hme⟩⟩⟩
        · have ho : Overrun mem i := ⟨(fits_iff.1 hfits).1, (fits_iff.1 hfits).2, hin⟩
          constructor
          · rintro ⟨-, -, hcs⟩
            exact absurd hcs (not_good_keysLoop ho)
          · rintro ⟨h, -⟩
            exact absurd ho (h hs hme)
    · rw [if_neg hfits, if_pos rfl]
      rw [fits_iff] at hfits
      refine ⟨fun _ => ⟨fun _ _ ho => hfits ⟨ho.1, ho.2.1⟩, fun hq => ?_⟩, fun _ => hstop⟩
      have hin := (hq hs).1
      unfold KeyInside at hin
      exact absurd ⟨by omega, by omega⟩ hfits

/-- What a safe loop that accepts has found. -/
theorem keys_keysLoop (hsize : size mem < 2 ^ 31 - 8) (hle : keyAt mem (sender mem) i ≤ size mem)
    {k' : Option (List UInt8)}
    (hsafe : Safe mem (keysLoop N.id K (sender mem) left i (cursorAt mem i) k))
    (hacc : ((keysLoop N.id K (sender mem) left i (cursorAt mem i) k).run mem).1 = .accepted k') :
    (∀ j, i ≤ j → j < i + left → (j : Int) ≠ sender mem → KeyInside mem j) ∧
      ((∃ key, k' = some key ∧ DecryptsTo K mem N.id key) ∨
        k' = k ∧ (i ≤ N.id → N.id < i + left → (N.id : Int) = sender mem)) := by
  induction left generalizing i k with
  | zero =>
    obtain rfl : k = k' := Outcome.accepted.inj hacc
    exact ⟨fun j _ _ => by omega, .inr ⟨rfl, fun _ _ => by omega⟩⟩
  | succ left ih =>
    have h24 := @le_keyAt mem (sender mem) i
    have hlen : (cursorAt mem i).len = (size mem - keyAt mem (sender mem) i).toNat := rfl
    have hdst : (cursorAt mem i).dst = keyAt mem (sender mem) i := rfl
    have hmod : (cursorAt mem i).len % 2 ^ 32 = (cursorAt mem i).len := Nat.mod_eq_of_lt (by omega)
    unfold keysLoop at hsafe hacc
    by_cases hs : (i : Int) = sender mem
    · have hkey : keyAt mem (sender mem) (i + 1) = keyAt mem (sender mem) i := if_pos hs
      have hnext : cursorAt mem (i + 1) = cursorAt mem i := by rw [cursorAt, hkey, cursorAt]
      rw [if_pos hs, ← hnext] at hsafe hacc
      obtain ⟨hin, hown⟩ := ih (by omega) hsafe hacc
      refine ⟨fun j hij hj hjs => ?_, hown.imp id fun ⟨hk, hme⟩ => ⟨hk, fun hi hl => ?_⟩⟩
      · rcases Nat.eq_or_lt_of_le hij with rfl | hij
        · exact absurd hs hjs
        · exact hin j hij (by omega) hjs
      · rcases Nat.eq_or_lt_of_le hi with heq | hi
        · rw [← heq]
          exact hs
        · exact hme hi (by omega)
    rw [if_neg hs, hmod, safe_bind (within_cipherSize (by omega) (by omega)),
      run_cipherSize (by omega), hdst, hlen] at hsafe
    rw [if_neg hs, hmod, run_bind, run_cipherSize (by omega), hdst, hlen] at hacc
    by_cases hfits : 8 ≤ (size mem - keyAt mem (sender mem) i).toNat ∧
        cipherLen mem (keyAt mem (sender mem) i) ≤ (size mem - keyAt mem (sender mem) i).toNat
    · rw [if_pos hfits, if_neg (by omega)] at hsafe hacc
      -- what is left for the rest of the loop, behind a key that is in the message
      have hrest : ∀ k, KeyInside mem i →
          Safe mem (keysLoop N.id K (sender mem) left (i + 1)
            ((cursorAt mem i).advance (cipherLen mem (keyAt mem (sender mem) i) + 8)) k) →
          ((keysLoop N.id K (sender mem) left (i + 1)
            ((cursorAt mem i).advance (cipherLen mem (keyAt mem (sender mem) i) + 8)) k).run
              mem).1 = .accepted k' →
          (∀ j, i ≤ j → j < i + (left + 1) → (j : Int) ≠ sender mem → KeyInside mem j) ∧
            ((∃ key, k' = some key ∧ DecryptsTo K mem N.id key) ∨
              k' = k ∧ (i + 1 ≤ N.id → N.id < i + 1 + left → (N.id : Int) = sender mem)) := by
        intro k hin h1 h2
        rw [advance_cursorAt hs hin] at h1 h2
        have hnext : keyAt mem (sender mem) (i + 1) = keyAt mem (sender mem) i +
          8 + cipherLen mem (keyAt mem (sender mem) i) := if_neg hs
        obtain ⟨hin', hown⟩ := ih (by unfold KeyInside at hin; omega) h1 h2
        refine ⟨fun j hij hj hjs => ?_, hown⟩
        rcases Nat.eq_or_lt_of_le hij with rfl | hij
        · exact hin
        · exact hin' j hij (by omega) hjs
      by_cases hme : i = N.id
      · rw [if_pos hme, safe_bind (within_ownKey (by omega) (by omega) (by omega))] at hsafe
        rw [if_pos hme, run_bind] at hacc
        cases hown : (ownKey K (cursorAt mem i)).run mem with
        | refused =>
          rw [hown] at hacc
          cases hacc
        | asserted =>
          rw [hown] at hacc
          cases hacc
        | key key =>
          rw [hown] at hsafe hacc
          obtain ⟨h8, -, -, hdec, h32⟩ := (run_ownKey (by omega)).1 hown
          rw [hdst, hlen] at h8
          have hin : KeyInside mem i := by
            unfold KeyInside
            omega
          rw [safe_cons] at hsafe
          rw [run_bind, run_pure] at hacc
          obtain ⟨hall, hk⟩ := hrest (some key) hin hsafe.2 hacc
          exact ⟨hall, .inl (hk.elim id fun ⟨hk, _⟩ => ⟨key, hk, hme ▸ hdec, h32⟩)⟩
      · rw [if_neg hme, safe_cons] at hsafe
        rw [if_neg hme, run_bind, run_pure] at hacc
        have hin : KeyInside mem i := by
          by_contra hin
          exact not_good_keysLoop ⟨(fits_iff.1 hfits).1, (fits_iff.1 hfits).2, hin⟩ hsafe.2.2
        obtain ⟨hall, hk⟩ := hrest k hin hsafe.2 hacc
        exact ⟨hall, hk.imp id fun ⟨hk, hown⟩ => ⟨hk, fun hi hl => hown (by omega) (by omega)⟩⟩
    · rw [if_neg hfits, if_pos rfl] at hacc
      cases hacc

/-! ## A message -/

variable {id sz : Int} {p : Principal}

/-- The cursor in front of the first key. -/
theorem cursorAt_zero (h : size mem = sz) (h24 : 24 ≤ sz) (hsz : sz < 2 ^ 31) :
    ⟨24, unsigned64 (sz - 24)⟩ = cursorAt mem 0 := by
  have h3 : keyAt mem (sender mem) 0 = 24 := rfl
  unfold cursorAt
  rw [h3, h]
  congr 1
  unfold unsigned64
  omega

theorem run_verifySigned (h : size mem = sz) (h24 : 24 ≤ sz) (hsz : sz < 2 ^ 31) :
    (verifySigned hash N K (sender mem) p sz).run mem =
    if signedOk hash N mem p sz = true then
  (keysLoop N.id K (sender mem) N.numReplicas 0 (cursorAt mem 0) none).run mem
    else (.refused, []) := by
  have hz : (sz % 2 ^ 32).toNat = sz.toNat := by omega
  unfold verifySigned signedOk
  rw [hz, cursorAt_zero h h24 hsz]
  dsimp only
  by_cases h2 : sz.toNat < p.sigSize
  · rw [if_pos h2]
    simp [show ¬ p.sigSize ≤ sz.toNat from not_le.2 h2]
  · rw [if_neg h2, run_bind]
    simp only [not_lt.1 h2, decide_true, Bool.true_and]
    cases (N.verifySignature hash (sender mem) p 0 (sz.toNat - p.sigSize)
      ((sz.toNat - p.sigSize : Nat) : Int) false).run mem with
    | true => simp
    | false => simp

theorem safe_verifySigned (h : size mem = sz) (h24 : 24 ≤ sz) (hsz : sz < 2 ^ 31) :
    Safe mem (verifySigned hash N K (sender mem) p sz) ↔
    (signedOk hash N mem p sz = true →
        Safe mem (keysLoop N.id K (sender mem) N.numReplicas 0 (cursorAt mem 0) none)) := by
  have hz : (sz % 2 ^ 32).toNat = sz.toNat := by omega
  have hrefused : Safe mem (pure (.refused, [])) := safe_pure.2 fun c hc => by cases hc
  unfold verifySigned signedOk
  rw [hz, cursorAt_zero h h24 hsz]
  dsimp only
  by_cases h2 : sz.toNat < p.sigSize
  · rw [if_pos h2]
    simpa [show ¬ p.sigSize ≤ sz.toNat from not_le.2 h2] using hrefused
  · rw [if_neg h2, safe_bind (Node.verifySignature_within (by omega) (by omega))]
    simp only [not_lt.1 h2, decide_true, Bool.true_and]
    cases (N.verifySignature hash (sender mem) p 0 (sz.toNat - p.sigSize)
      ((sz.toNat - p.sigSize : Nat) : Int) false).run mem with
    | true => simp
    | false => simpa using hrefused

/-- The checks come first, and what they read is in the message. -/
theorem run_verify (h : size mem = sz) (h24 : 24 ≤ sz) (hsz : sz < 2 ^ 31)
    (hc : Checked hash N mem) :
    (verify hash N K).run mem =
      (keysLoop N.id K (sender mem) N.numReplicas 0 (cursorAt mem 0) none).run mem := by
  have hid : Bytes.toInt (mem.slice 16 4) = sender mem := rfl
  have hr : Bytes.toNat (mem.slice 8 8) = rid mem := rfl
  have hz : Bytes.toInt (mem.slice 4 4) = sz := h
  obtain ⟨p, hp, hlt, hs⟩ := hc
  rw [h] at hs
  unfold verify
  rw [run_bytes_bind, hid, hp]
  dsimp only
  rw [run_bytes_bind, hr, if_neg (not_le.2 hlt), run_bytes_bind,
    hz, run_verifySigned h h24 hsz, if_pos hs]

theorem run_verify_refused (h : size mem = sz) (h24 : 24 ≤ sz) (hsz : sz < 2 ^ 31)
    (hc : ¬ Checked hash N mem) :
    (verify hash N K).run mem = (.refused, []) := by
  have hid : Bytes.toInt (mem.slice 16 4) = sender mem := rfl
  have hr : Bytes.toNat (mem.slice 8 8) = rid mem := rfl
  have hz : Bytes.toInt (mem.slice 4 4) = sz := h
  unfold verify
  rw [run_bytes_bind, hid]
  cases hp : N.iToP (sender mem) with
  | none => rfl
  | some p =>
    dsimp only
    rw [run_bytes_bind, hr]
    by_cases h1 : rid mem ≤ p.tstamp
    · rw [if_pos h1, run_pure]
    · rw [if_neg h1, run_bytes_bind, hz, run_verifySigned h h24 hsz,
        if_neg fun hs => hc ⟨p, hp, not_le.1 h1, h ▸ hs⟩]

theorem safe_verify (h : size mem = sz) (h24 : 24 ≤ sz) (hsz : sz < 2 ^ 31) :
    Safe mem (verify hash N K) ↔
    (Checked hash N mem →
        Safe mem (keysLoop N.id K (sender mem) N.numReplicas 0 (cursorAt mem 0) none)) := by
  have hid : Bytes.toInt (mem.slice 16 4) = sender mem := rfl
  have hr : Bytes.toNat (mem.slice 8 8) = rid mem := rfl
  have hz : Bytes.toInt (mem.slice 4 4) = sz := h
  have hrefused : Safe mem (pure (.refused, [])) := safe_pure.2 fun c hc => by cases hc
  have hin : ∀ {a : Int} {len : Nat}, 0 ≤ a → a + len ≤ 24 →
    (bytes a len).Within mem 0 (size mem) := fun h0 h1 =>
    within_bytes.2 fun _ => by omega
  unfold verify
  rw [safe_bind (hin (by omega) (by omega)), run_bytes, hid]
  cases hp : N.iToP (sender mem) with
  | none =>
    refine ⟨fun _ hc => ?_, fun _ => hrefused⟩
    obtain ⟨p, hp', -⟩ := hc
    rw [hp] at hp'
    cases hp'
  | some p =>
    have hchecked : Checked hash N mem ↔ p.tstamp < rid mem ∧ signedOk hash N mem p sz = true := by
      constructor
      · rintro ⟨p', hp', hlt, hs⟩
        obtain rfl : p = p' := Option.some.inj (hp.symm.trans hp')
        exact ⟨hlt, h ▸ hs⟩
      · rintro ⟨hlt, hs⟩
        exact ⟨p, hp, hlt, h ▸ hs⟩
    rw [hchecked]
    dsimp only
    rw [safe_bind (hin (by omega) (by omega)), run_bytes, hr]
    by_cases h1 : rid mem ≤ p.tstamp
    · rw [if_pos h1]
      exact ⟨fun _ hc => absurd hc.1 (not_lt.2 h1), fun _ => hrefused⟩
    · rw [if_neg h1, safe_bind (hin (by omega) (by omega)),
        run_bytes, hz, safe_verifySigned h h24 hsz]
      exact ⟨fun hs hc => hs hc.2, fun hs hok => hs ⟨not_le.1 h1, hok⟩⟩

/-- A replica does not accept its own messages. -/
theorem Checked.ne_self (h : Checked hash N mem) : (N.id : Int) ≠ sender mem := by
  intro heq
  obtain ⟨p, -, -, hs⟩ := h
  unfold signedOk Node.verifySignature at hs
  rw [if_pos ⟨heq.symm, rfl⟩, run_pure, Bool.and_false] at hs
  cases hs

/-- **`New_key::verify`** keeps to the message, and accepts only what has all its keys, exactly when
no key for another replica ends behind the message by so little that its ciphertext alone would
fit. -/
theorem verify_keysInBounds_iff {P : Params} (h : Received mem P 11 24)
    (hid : N.id < N.numReplicas) :
    InBounds hash N K mem ↔ NoOverrun hash N K mem := by
  obtain ⟨-, hsize, -, hmax⟩ := h.spec
  have hP := P.maxMessageSize_le
  have hal := alignedSize_lt P.maxMessageSize
  have h24 : keyAt mem (sender mem) 0 = 24 := rfl
  have hsz : size mem < 2 ^ 31 := by omega
  have hloop : Safe mem (keysLoop N.id K (sender mem) N.numReplicas 0 (cursorAt mem 0) none) ↔ _ :=
    safe_keysLoop (by omega) (by omega)
  have hsafe : Safe mem (verify hash N K) ↔ NoOverrun hash N K mem := by
    rw [safe_verify rfl hsize hsz]
    refine forall_congr' fun _ => hloop.trans ?_
    simp only [Nat.zero_le, forall_const, Nat.zero_add]
    exact ⟨fun h i hi hs hme hp => h i hi hs hp hme, fun h i hi hs hp hme => h i hi hs hme hp⟩
  rw [← hsafe]
  constructor
  · exact fun hb => ⟨hb.reads, hb.cursors⟩
  · intro hs
    refine ⟨hs.1, hs.2, fun k hk => ?_⟩
    by_cases hc : Checked hash N mem
    · rw [run_verify rfl hsize hsz hc] at hk
      obtain ⟨hall, hown⟩ :=
        keys_keysLoop (by omega) (by omega) ((safe_verify rfl hsize hsz).1 hs hc) hk
      refine ⟨fun i hi => hall i (Nat.zero_le i) (by omega), ?_⟩
      rcases hown with ⟨key, hk, hdec⟩ | ⟨-, hme⟩
      · exact ⟨key, hk, hdec⟩
      · exact absurd (hme (Nat.zero_le _) (by omega)) hc.ne_self
    · rw [run_verify_refused rfl hsize hsz hc] at hk
      cases hk

/-- Replica 1 of four, to which the signatures look right. -/
def replicaOne : Node where
  P := .default
  id := 1
  numReplicas := 4
  numPrincipals := 4
  principals _ := ⟨⟨256, PublicKey.rsa2048_le, fun _ _ => true, fun _ _ => none⟩, none, [], 0⟩
  v := 0
  curPrimary := 0
  replicas_pos := Node.four_pos
  replicas_le := Node.four_le

/-- A key of 2048 bits to which every ciphertext is one of zeros. -/
def zeroKey : PrivateKey := ⟨256, fun _ => some (List.replicate 32 0), fun _ => []⟩

/-- A new-key message of replica 0 with keys for three others: 824 bytes, of which the last 264 are
the signature. The ciphertext of the last key has a length of its own. -/
def threeKeys (last : UInt8 × UInt8) : Memory := Memory.ofBytes
  ([11, 0, 0, 0, 56, 3, 0, 0] ++ [1, 0, 0, 0, 0, 0, 0, 0] ++ List.replicate 8 0 ++
    [32, 0, 0, 0, 0, 1, 0, 0] ++ List.replicate 256 0 ++
      [32, 0, 0, 0, 0, 1, 0, 0] ++ List.replicate 256 0 ++
    [32, 0, 0, 0, last.1, last.2, 0, 0] ++ [0, 1, 0, 0]) fun _ => 0

theorem threeKeys_inBounds : InBounds (fun _ => 0) replicaOne zeroKey (threeKeys (8, 1)) :=
  (verify_keysInBounds_iff (P := .default) (by decide) (by decide)).2 fun _ i hi _ _ _ =>
    (by decide +kernel : ∀ i < 4, ¬ Overrun (threeKeys (8, 1)) i) i hi

/-- **The last key ends eight bytes behind the message**: its ciphertext has as many bytes as are
left from its lengths on. The message is accepted and the keys are set. -/
theorem longKey_accepted : Received (threeKeys (16, 1)) .default 11 24 ∧
    ((verify (fun _ => 0) replicaOne zeroKey).run (threeKeys (16, 1))).1 =
      .accepted (some (List.replicate 32 0)) ∧
    ¬ InBounds (fun _ => 0) replicaOne zeroKey (threeKeys (16, 1)) := by
  have hacc : ((verify (fun _ => 0) replicaOne zeroKey).run (threeKeys (16, 1))).1 =
    .accepted (some (List.replicate 32 0)) := by
    decide +kernel
  refine ⟨by decide, hacc, fun h => ?_⟩
  exact absurd ((h.keys _ hacc).1 3 (by decide) (by decide)) (by decide +kernel)

end NewKey

end TinyBFT
