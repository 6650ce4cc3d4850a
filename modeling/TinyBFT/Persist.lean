import TinyBFT.Bitmap
import TinyBFT.Certificate
import TinyBFT.Lib.Decoder

/-!
# Certificates in a file (`encode`, `decode` of `Certificate.t`, `Prepared_cert.cc`, `Bitmap.h`)

A replica that shuts down writes its certificates to a file, and reads them back when it restarts
(`Replica.cc:1837-1844`, `:1889-1899`).

| here | there |
| --- | --- |
| `Stored`         | a `Message` with its buffer: `max_size`, and the `size()` bytes of its contents |
| `Setting`        | the node and the build: `max` is `Max_num_replicas` |
| `Bitmap.encode`, `Bitmap.decode` | `Bitmap.h:259-277`; `fresh` is what the memory of the new chunks holds |
| `Stored.encode`, `Stored.decode` | `Message::encode`, `Message::decode` of a new message (`Message.cc:116-139`) |
| `Certificate.encode`, `Certificate.decode` | `Certificate.t:234-303` |
| `Restored`       | what `decode` leaves: `correct` and `t_sent` are not in the file |
| `PreparedFile`   | `Prepared_cert`, its messages with their buffers; `encode`, `decode` (`Prepared_cert.cc:83-99`) |

`decode` stops where an assertion fails and where a null pointer is followed, and refuses where it
returns `false`; after that nobody reads what it left. A file that ends early is refused at once. In
the static build no allocator of messages is made (`Message.cc:141-145`).
-/

namespace TinyBFT

structure Stored where
  maxSize : Nat
  bytes : List UInt8
  pos : 0 < maxSize
  /-- The buffer is a block that `malloc` gave. -/
  lt : maxSize < 65504
  fits : bytes.length ≤ maxSize
deriving DecidableEq

structure Setting extends Env where
  max : Nat
  n_eq : n = 3 * f + 1
  id_lt : id < n
  n_le : n ≤ max
  max_lt : max < 2 ^ 31

open Decoder

/-! ## The bitmap -/

namespace Bitmap

/-- Byte `k` of the chunks. -/
def byte (b : Bitmap) (k : Nat) : UInt8 :=
  UInt8.ofNat ((b.chunks.getD (k / 8) 0).toNat / 256 ^ (k % 8))

/-- `fwrite(chunks, sizeof(Uint), nc, o)`: four bytes for each chunk. -/
def encode (b : Bitmap) : List UInt8 :=
  Bytes.ofNat 4 b.num ++
    (Bytes.ofNat 4 b.chunks.length ++ (List.range (4 * b.chunks.length)).map b.byte)

/-- The chunks, of which the first bytes were read. -/
def chunksOf (fresh : Nat → UInt8) (nc : Nat) (bs : List UInt8) : List Chunk :=
  (List.range nc).map fun j =>
    BitVec.ofNat 64 (Bytes.toNat ((List.range 8).map
      fun t => (bs[8 * j + t]?).getD (fresh (8 * j + t))))

def decode (fresh : Nat → UInt8) : Decoder Bitmap := do
  let num ← nat 4
  let nc ← nat 4
  let bs ← take (4 * nc)
  if h : num < 2 ^ 32 ∧ num ≤ 64 * (chunksOf fresh nc bs).length then
    return ⟨num, chunksOf fresh nc bs, h.1, h.2⟩
  else fault .refused

/-- The bitmap of a certificate. -/
def ofSenders (max : Nat) (hmax : max < 2 ^ 32) (senders : List Nat) : Bitmap :=
  senders.foldr (fun i b => b.set i) (blank max hmax)

end Bitmap

/-! ## A message -/

namespace Stored

def encode (m : Stored) : List UInt8 :=
  Bytes.ofInt 4 m.maxSize ++ (Bytes.ofInt 4 m.bytes.length ++ m.bytes)

/-- The contents, when the buffer is there. -/
def decodeContents (maxSize : Nat) (pos : 0 < maxSize) (lt : maxSize < 65504) : Decoder Stored := do
  let csize ← int 4
  if csize < 0 ∨ maxSize < csize then fault .refused
  else
    let bs ← take csize.toNat
    if fits : bs.length ≤ maxSize then return ⟨maxSize, bs, pos, lt, fits⟩ else fault .refused

/-- `malloc` asserts that the size is in range; for one that no chunk has room for it does not
return. -/
def decode (staticLog : Bool) : Decoder Stored := do
  let maxSize ← int 4
  if staticLog then fault .stops
  else if h : 0 < maxSize.toNat ∧ maxSize.toNat < 65504 then decodeContents maxSize.toNat h.1 h.2
  else fault .stops

end Stored

/-! ## A certificate -/

structure Restored where
  bmap : Bitmap
  maxSize : Int
  vals : List (MessageVal (Option Stored))
  c : Option Nat
  correct : Nat
  complete : Int
  mym : Option Stored

namespace Certificate

variable (P : Setting)

def encodeVal (v : MessageVal Stored) : List UInt8 :=
  Bytes.ofInt 4 v.count ++ if v.count = 0 then [] else v.m.encode

/-- `c - vals`. -/
def cindex (cert : Certificate Stored) : Int := (cert.c.map fun k => (k : Int)).getD (-1)

def encode (cert : Certificate Stored) : List UInt8 :=
  (Bitmap.ofSenders P.max (by have := P.max_lt; omega) cert.bmap).encode ++
    (Bytes.ofInt 4 (P.f + 1 : Nat) ++
      (Bytes.ofInt 4 cert.vals.length ++ (cert.vals.flatMap encodeVal ++
      (Bytes.ofInt 4 cert.complete ++
        (Bytes.ofInt 4 cert.cindex ++ [if cert.mym.isSome then 1 else 0])))))

def decodeVal : Decoder (MessageVal (Option Stored)) := do
  let count ← int 4
  if count < 0 ∨ (P.n : Int) < count then fault .refused
  else if count = 0 then return ⟨none, 0⟩
  else
    let m ← Stored.decode P.staticLog
    return ⟨some m, count.toNat⟩

def decodeVals : Nat → Decoder (List (MessageVal (Option Stored)))
  | 0 => return []
  | k + 1 => do
    let v ← decodeVal P
    let vs ← decodeVals k
    return v :: vs

/-- What comes behind the values. -/
def decodeRest (bmap : Bitmap) (maxSize curSize : Int) (vals : List (MessageVal (Option Stored)))
    (mym : Option Stored) :
    Decoder Restored := do
  let complete ← int 4
  let cindex ← int 4
  let hmym ← take 1
  if cindex = -1 then return ⟨bmap, maxSize, vals, none, P.f + 1, complete, none⟩
  else if cindex < 0 ∨ curSize < cindex then fault .refused
  else
    return ⟨bmap, maxSize, vals, some cindex.toNat, P.f + 1, complete,
      if hmym = [0] then mym else vals[cindex.toNat]?.bind fun v => v.m⟩

/-- `decode` into the certificate `old`. -/
def decode (fresh : Nat → UInt8) (old : Certificate Stored) : Decoder Restored := do
  let bmap ← Bitmap.decode fresh
  let maxSize ← int 4
  if maxSize < 0 then fault .stops
  else
    let curSize ← int 4
    if curSize < 0 ∨ maxSize ≤ curSize then fault .refused
    else
      let vals ← decodeVals P curSize.toNat
      decodeRest P bmap maxSize curSize vals old.mym

/-- What was restored is the certificate. -/
structure Same (r : Restored) (cert : Certificate Stored) : Prop where
  num : r.bmap.num = P.max
  bmap : ∀ i < P.max, r.bmap.test i = decide (i ∈ cert.bmap)
  maxSize : r.maxSize = (P.f + 1 : Nat)
  vals : r.vals = cert.vals.map fun v => ⟨some v.m, v.count⟩
  c : r.c = cert.c
  correct : r.correct = P.f + 1
  complete : r.complete = cert.complete
  mym : r.mym = cert.mym

/-- Whatever new memory holds, `decode` into a cleared certificate takes off what `encode` wrote and
restores the certificate. -/
def RoundTrips (old cert : Certificate Stored) : Prop :=
  ∀ fresh, ∃ r, Gives (decode P fresh old.clear) (encode P cert) r ∧ Same P r cert

end Certificate

/-! ## A prepared certificate -/

structure PreparedFile where
  pc : Certificate Stored
  pp : Option Stored
  primary : Bool

namespace PreparedFile

variable (P : Setting)

def clear (c : PreparedFile) : PreparedFile := ⟨c.pc.clear, none, false⟩

/-- `none`: there is no pre-prepare to encode. -/
def encode (c : PreparedFile) : Option (List UInt8) :=
  c.pp.map fun pp => Certificate.encode P c.pc ++ (pp.encode ++ [if c.primary then 1 else 0])

/-- The assertion at the start asks for a pre-prepare, to decode into. -/
def decode (fresh : Nat → UInt8) (old : PreparedFile) : Decoder (Restored × Stored × Bool) :=
  if old.pp = none then fault .stops
  else do
    let pc ← Certificate.decode P fresh old.pc
    let pp ← Stored.decode P.staticLog
    let primary ← take 1
    return (pc, pp, primary != [0])

def RoundTrips (old c : PreparedFile) : Prop :=
  ∃ bs, c.encode P = some bs ∧ ∀ fresh, ∃ r pp,
    Gives (decode P fresh old.clear) bs (r, pp, c.primary) ∧
    Certificate.Same P r c.pc ∧ c.pp = some pp

end PreparedFile

theorem gives_int4 {z : Int} (h1 : -2 ^ 31 ≤ z) (h2 : z < 2 ^ 31) :
    Gives (int 4) (Bytes.ofInt 4 z) z :=
  gives_int (by norm_num; omega) (by norm_num; omega)

/-! ## What is read back of a bitmap -/

namespace Bitmap

variable {b : Bitmap} {fresh : Nat → UInt8} {max : Nat} {senders : List Nat}

theorem num_ofSenders (hmax : max < 2 ^ 32) : (ofSenders max hmax senders).num = max := by
  induction senders with
  | nil => rfl
  | cons i is ih => exact ih

theorem length_ofSenders (hmax : max < 2 ^ 32) :
    (ofSenders max hmax senders).chunks.length = (max + 63) / 64 := by
  induction senders with
  | nil => exact List.length_replicate
  | cons i is ih => exact (List.length_modify ..).trans ih

theorem test_ofSenders (hmax : max < 2 ^ 32) (hs : ∀ i ∈ senders, i < max) (j : Nat) :
    (ofSenders max hmax senders).test j = decide (j ∈ senders) := by
  induction senders with
  | nil => simp [ofSenders, test_blank]
  | cons i is ih =>
    have hi : i < (ofSenders max hmax is).num := by
      rw [num_ofSenders]
      exact hs i List.mem_cons_self
    have hset : ofSenders max hmax (i :: is) = (ofSenders max hmax is).set i := rfl
    rw [hset, test_set hi, ih fun x hx => hs x (List.mem_cons_of_mem _ hx)]
    simp [eq_comm]

@[simp] theorem length_chunksOf {nc : Nat} {bs : List UInt8} :
    (chunksOf fresh nc bs).length = nc := by
  simp [chunksOf]

/-- Half of the chunks are the old ones; the other half is what the memory had. -/
theorem decode_encode (b : Bitmap) (fresh : Nat → UInt8) (hnc : b.chunks.length < 2 ^ 32) :
    ∃ b', Gives (decode fresh) b.encode b' ∧ b'.num = b.num ∧ ∀ i < b.num,
      b'.test i = if i < 32 * b.chunks.length then b.test i
        else (fresh (i / 8)).toNat.testBit (i % 8) := by
  have hfits : b.num < 2 ^ 32 ∧ b.num ≤ 64 * (chunksOf fresh b.chunks.length
      ((List.range (4 * b.chunks.length)).map b.byte)).length := by
    rw [length_chunksOf]
    exact ⟨b.num_lt, b.fits⟩
  refine ⟨⟨b.num, chunksOf fresh b.chunks.length ((List.range (4 * b.chunks.length)).map b.byte),
    hfits.1, hfits.2⟩, ?_, rfl, ?_⟩
  · unfold decode encode
    refine (gives_nat b.num_lt).bind ((gives_nat hnc).bind ((gives_take (by simp)).last ?_))
    rw [dif_pos hfits]
    exact gives_pure
  · intro i hi
    have hj : i / 64 < b.chunks.length := by
      have := b.fits
      omega
    have hmod : i % 64 < 64 := Nat.mod_lt _ (by decide)
    have hbyte : 8 * (i / 64) + i % 64 / 8 = i / 8 := by omega
    have ht : i % 64 / 8 < 8 := by omega
    -- the bit lies in byte `i / 8`
    rw [test_eq]
    unfold chunk chunksOf
    dsimp only
    rw [List.getD_eq_getElem?_getD, List.getElem?_map, List.getElem?_range hj,
      Option.map_some, Option.getD_some,
      BitVec.getLsbD_ofNat, Bytes.testBit_toNat, List.getD_eq_getElem?_getD,
        List.getElem?_map, List.getElem?_range ht,
      Option.map_some, Option.getD_some, hbyte, List.getElem?_map]
    rw [show i % 64 % 8 = i % 8 by omega, decide_eq_true hmod, Bool.true_and]
    by_cases hlow : i < 32 * b.chunks.length
    · have hk : i / 8 < 4 * b.chunks.length := by omega
      rw [if_pos hlow, List.getElem?_range hk, Option.map_some,
        Option.getD_some, byte, Bytes.testBit_ofNat_div (by omega), test_eq,
        BitVec.testBit_toNat, chunk]
      congr 1
      · rw [Nat.div_div_eq_div_mul]
      · omega
    · have hk : 4 * b.chunks.length ≤ i / 8 := by omega
      rw [if_neg hlow, List.getElem?_eq_none (by simpa using hk)]
      rfl

end Bitmap

/-! ## What is read back of a message -/

theorem Stored.decode_encode (m : Stored) : Gives (Stored.decode false) m.encode m := by
  obtain ⟨maxSize, bytes, pos, lt, fits⟩ := m
  have hmax : Gives (int 4) (Bytes.ofInt 4 maxSize) maxSize := gives_int4 (by omega) (by omega)
  have hsize : Gives (int 4) (Bytes.ofInt 4 bytes.length) bytes.length :=
    gives_int4 (by omega) (by omega)
  unfold Stored.decode Stored.encode
  refine hmax.bind ?_
  have hcond : 0 < (maxSize : Int).toNat ∧ (maxSize : Int).toNat < 65504 := by
    rw [Int.toNat_natCast]
    exact ⟨pos, lt⟩
  rw [if_neg Bool.false_ne_true, dif_pos hcond]
  unfold Stored.decodeContents
  refine hsize.bind ?_
  rw [if_neg (by omega)]
  refine (gives_take (Int.toNat_natCast _).symm).last ?_
  rw [dif_pos (by simpa using fits)]
  exact gives_pure

/-- No message is restored without an allocator. -/
theorem Stored.decode_static (m : Stored) : Faults (Stored.decode true) m.encode .stops := by
  have hmax : Gives (int 4) (Bytes.ofInt 4 m.maxSize) m.maxSize :=
    gives_int4 (by omega) (by have := m.lt; omega)
  exact hmax.bind_faults faults_fault

/-! ## What is read back of a certificate -/

namespace Certificate

variable {P : Setting} {cert old : Certificate Stored} {vals : List (MessageVal Stored)}
    {v : MessageVal Stored}
  {fresh : Nat → UInt8} {r : Restored}

/-- What the operations keep of a certificate, as far as its file depends on it. -/
structure Writable (P : Setting) (cert : Certificate Stored) : Prop where
  senders : ∀ i ∈ cert.bmap, i < P.max
  pos : ∀ v ∈ cert.vals, 0 < v.count
  le : ∀ v ∈ cert.vals, v.count ≤ P.n
  length : cert.vals.length ≤ P.f + 1
  c : ∀ k, cert.c = some k → k < cert.vals.length
  mym : ∀ m, cert.mym = some m → ∃ k v, cert.c = some k ∧ cert.vals[k]? = some v ∧ v.m = m
  complete : cert.complete < 2 ^ 31

theorem decodeVal_gives (hs : P.staticLog = false) (hpos : 0 < v.count) (hle : v.count ≤ P.n) :
    Gives (decodeVal P) (encodeVal v) ⟨some v.m, v.count⟩ := by
  have hn := P.n_le.trans_lt P.max_lt
  have hcount : Gives (int 4) (Bytes.ofInt 4 v.count) v.count := gives_int4 (by omega) (by omega)
  unfold decodeVal encodeVal
  rw [if_neg (by omega)]
  refine hcount.bind ?_
  rw [if_neg (by omega), if_neg (by omega), hs]
  exact v.m.decode_encode.last gives_pure

theorem decodeVal_static (hs : P.staticLog = true) (hpos : 0 < v.count) (hle : v.count ≤ P.n) :
    Faults (decodeVal P) (encodeVal v) .stops := by
  have hn := P.n_le.trans_lt P.max_lt
  have hcount : Gives (int 4) (Bytes.ofInt 4 v.count) v.count := gives_int4 (by omega) (by omega)
  unfold decodeVal encodeVal
  rw [if_neg (by omega)]
  refine hcount.bind_faults ?_
  rw [if_neg (by omega), if_neg (by omega), hs]
  have h := v.m.decode_static.bind (f := fun m =>
    (return ⟨some m, (v.count : Int).toNat⟩ : Decoder (MessageVal (Option Stored)))) []
  rwa [List.append_nil] at h

theorem decodeVals_gives (hs : P.staticLog = false) (hpos : ∀ v ∈ vals, 0 < v.count)
    (hle : ∀ v ∈ vals, v.count ≤ P.n) :
    Gives (decodeVals P vals.length) (vals.flatMap encodeVal) (vals.map
        fun v => ⟨some v.m, v.count⟩) := by
  induction vals with
  | nil => exact gives_pure
  | cons v vs ih =>
    have hv := decodeVal_gives hs (hpos v List.mem_cons_self) (hle v List.mem_cons_self)
    have hvs := ih (fun x hx => hpos x (List.mem_cons_of_mem _ hx))
      fun x hx => hle x (List.mem_cons_of_mem _ hx)
    rw [List.flatMap_cons]
    exact hv.bind (hvs.last gives_pure)

theorem decodeVals_static (hs : P.staticLog = true) (hne : vals ≠ [])
    (hpos : ∀ v ∈ vals, 0 < v.count) (hle : ∀ v ∈ vals, v.count ≤ P.n) :
    Faults (decodeVals P vals.length) (vals.flatMap encodeVal) .stops := by
  obtain ⟨v, vs, rfl⟩ := List.exists_cons_of_ne_nil hne
  exact (decodeVal_static hs (hpos v List.mem_cons_self) (hle v List.mem_cons_self)).bind _

theorem decodeRest_gives (h : Writable P cert) (bmap : Bitmap) (maxSize : Int) :
    Gives (decodeRest P bmap maxSize cert.vals.length (cert.vals.map
          fun v => ⟨some v.m, v.count⟩) none)
      (Bytes.ofInt 4 cert.complete ++
          (Bytes.ofInt 4 cert.cindex ++ [if cert.mym.isSome then 1 else 0]))
      ⟨bmap, maxSize, cert.vals.map fun v => ⟨some v.m, v.count⟩,
          cert.c, P.f + 1, cert.complete, cert.mym⟩ := by
  have hn := P.n_le.trans_lt P.max_lt
  have hlen := h.length
  have hneq := P.n_eq
  have hcomplete : Gives (int 4) (Bytes.ofInt 4 cert.complete) cert.complete :=
    gives_int4 (by omega) (by have := h.complete; omega)
  unfold decodeRest
  refine hcomplete.bind ?_
  cases hc : cert.c with
  | none =>
    have hmym : cert.mym = none := by
      cases hm : cert.mym with
      | none => rfl
      | some m =>
        obtain ⟨k, v, hk, -⟩ := h.mym m hm
        rw [hc] at hk
        cases hk
    have hcindex : cert.cindex = -1 := by
      rw [cindex, hc]
      rfl
    have hone : Gives (int 4) (Bytes.ofInt 4 cert.cindex) (-1) := by
      rw [hcindex]
      exact gives_int4 (by omega) (by omega)
    refine hone.bind ?_
    refine (gives_take (n := 1) (by rfl)).last ?_
    rw [if_pos rfl, hmym]
    exact gives_pure
  | some k =>
    have hk := h.c k hc
    have hcindex : cert.cindex = k := by
      rw [cindex, hc]
      rfl
    have hone : Gives (int 4) (Bytes.ofInt 4 cert.cindex) k := by
      rw [hcindex]
      exact gives_int4 (by omega) (by omega)
    refine hone.bind ?_
    refine (gives_take (n := 1) (by rfl)).last ?_
    rw [if_neg (by omega), if_neg (by omega), Int.toNat_natCast]
    have hmym :
      (if [if cert.mym.isSome then (1 : UInt8) else 0] = [0] then (none : Option Stored) else
        (cert.vals.map fun v => (⟨some v.m, v.count⟩ : MessageVal (Option Stored)))[k]?.bind
          fun v => v.m) = cert.mym := by
      cases hm : cert.mym with
      | none => rfl
      | some m =>
        obtain ⟨k', v, hk', hv, rfl⟩ := h.mym m hm
        obtain rfl := Option.some.inj (hc.symm.trans hk')
        rw [List.getElem?_map, hv]
        rfl
    rw [hmym]
    exact gives_pure

/-- The condition under which a certificate comes back: room for the bitmap in half of its chunks, a
message allocator, and a value less than there is room for. -/
def Restorable (P : Setting) (cert : Certificate Stored) : Prop :=
  P.max ≤ 32 ∧ (cert.vals = [] ∨ P.staticLog = false ∧ cert.vals.length < P.f + 1)

instance (P : Setting) (cert : Certificate Stored) : Decidable (Restorable P cert) :=
  inferInstanceAs (Decidable (_ ∧ _))

/-- The start of every `decode`. -/
theorem decode_start (h : Writable P cert) (fresh : Nat → UInt8) :
    ∃ b, Gives (Bitmap.decode fresh)
      (Bitmap.ofSenders P.max (by have := P.max_lt; omega) cert.bmap).encode b ∧ b.num = P.max ∧
      ∀ i < P.max, b.test i =
        if i < 32 * ((P.max + 63) / 64) then
  decide (i ∈ cert.bmap) else (fresh (i / 8)).toNat.testBit (i % 8) := by
  have hmax := P.max_lt
  have hlt : P.max < 2 ^ 32 := by omega
  obtain ⟨b, hb, hnum, htest⟩ :=
    Bitmap.decode_encode (Bitmap.ofSenders P.max hlt cert.bmap) fresh (by
    rw [Bitmap.length_ofSenders]
    omega)
  rw [Bitmap.num_ofSenders] at hnum htest
  refine ⟨b, hb, hnum, fun i hi => ?_⟩
  rw [htest i hi, Bitmap.length_ofSenders, Bitmap.test_ofSenders hlt h.senders]

theorem size_gives (P : Setting) :
    Gives (int 4) (Bytes.ofInt 4 (P.f + 1 : Nat)) (P.f + 1 : Nat) := by
  have hn := P.n_le.trans_lt P.max_lt
  have hneq := P.n_eq
  exact gives_int4 (by omega) (by omega)

theorem length_gives (h : Writable P cert) :
    Gives (int 4) (Bytes.ofInt 4 cert.vals.length) cert.vals.length := by
  have hn := P.n_le.trans_lt P.max_lt
  have hneq := P.n_eq
  have hlen := h.length
  exact gives_int4 (by omega) (by omega)

/-- What `decode` gives where it gets through the values. -/
theorem decode_gives (h : Writable P cert)
    (hvals : cert.vals = [] ∨ P.staticLog = false ∧ cert.vals.length < P.f + 1)
    (old : Certificate Stored) {b : Bitmap} (hb : Gives (Bitmap.decode fresh)
      (Bitmap.ofSenders P.max (by have := P.max_lt; omega) cert.bmap).encode b) :
    Gives (decode P fresh old.clear) (encode P cert)
      ⟨b, (P.f + 1 : Nat), cert.vals.map fun v => ⟨some v.m, v.count⟩,
          cert.c, P.f + 1, cert.complete, cert.mym⟩ := by
  have hlt : cert.vals.length < P.f + 1 := by
    rcases hvals with hnil | ⟨-, hlt⟩
    · rw [hnil]
      exact Nat.succ_pos _
    · exact hlt
  have hloop : Gives (decodeVals P cert.vals.length) (cert.vals.flatMap encodeVal) (cert.vals.map
    fun v => ⟨some v.m, v.count⟩) := by
    rcases hvals with hnil | ⟨hs, -⟩
    · rw [hnil]
      exact gives_pure
    · exact decodeVals_gives hs h.pos h.le
  unfold decode encode
  refine hb.bind ((size_gives P).bind ?_)
  rw [if_neg (by omega)]
  refine (length_gives h).bind ?_
  rw [if_neg (by omega), Int.toNat_natCast]
  exact hloop.bind (decodeRest_gives h b _)

/-- Where the values are the end of it. -/
theorem decode_faults (h : Writable P cert)
    (hvals : ¬(cert.vals = [] ∨ P.staticLog = false ∧ cert.vals.length < P.f + 1))
    (old : Certificate Stored) {b : Bitmap} (hb : Gives (Bitmap.decode fresh)
      (Bitmap.ofSenders P.max (by have := P.max_lt; omega) cert.bmap).encode b) :
    ∃ e, Faults (decode P fresh old) (encode P cert) e := by
  push Not at hvals
  obtain ⟨hne, hfull⟩ := hvals
  unfold decode encode
  by_cases hlt : cert.vals.length < P.f + 1
  · -- the static build has no messages to decode into
    have hs : P.staticLog = true := by
      by_contra hs
      have := hfull (by simpa using hs)
      omega
    refine ⟨.stops, hb.bind_faults ((size_gives P).bind_faults ?_)⟩
    rw [if_neg (by omega)]
    refine (length_gives h).bind_faults ?_
    rw [if_neg (by omega), Int.toNat_natCast]
    exact (decodeVals_static hs hne h.pos h.le).bind _
  · -- as many values as there is room for
    refine ⟨.refused, hb.bind_faults ((size_gives P).bind_faults ?_)⟩
    rw [if_neg (by omega)]
    refine (length_gives h).bind_faults ?_
    rw [if_pos (by omega)]
    exact faults_fault

theorem roundTrips_iff (h : Writable P cert) (old : Certificate Stored) :
    RoundTrips P old cert ↔ Restorable P cert := by
  constructor
  · intro hrt
    by_cases hvals : cert.vals = [] ∨ P.staticLog = false ∧ cert.vals.length < P.f + 1
    · refine ⟨?_, hvals⟩
      -- a bit beyond the first half of the chunks is what the memory had
      by_contra hmax
      have hi : 32 * ((P.max + 63) / 64) < P.max := by omega
      have hfresh : ∀ fresh : Nat → UInt8,
          (fresh (32 * ((P.max + 63) / 64) / 8)).toNat.testBit (32 * ((P.max + 63) / 64) % 8) =
            decide (32 * ((P.max + 63) / 64) ∈ cert.bmap) := by
        intro fresh
        obtain ⟨b, hb, -, htest⟩ := decode_start h fresh
        obtain ⟨r, hr, hsame⟩ := hrt fresh
        have heq := hr.unique (decode_gives h hvals old hb)
        have hbit := hsame.bmap _ hi
        rw [heq] at hbit
        rw [← hbit]
        exact ((htest _ hi).trans (if_neg (lt_irrefl _))).symm
      have hzero := hfresh fun _ => 0
      have hones := hfresh fun _ => 255
      rw [← hzero] at hones
      have hbyte : 32 * ((P.max + 63) / 64) % 8 = 0 := by omega
      rw [hbyte] at hones
      exact absurd hones (by decide)
    · obtain ⟨b, hb, -⟩ := decode_start h fun _ => 0
      obtain ⟨r, hr, -⟩ := hrt fun _ => 0
      obtain ⟨e, he⟩ := decode_faults h hvals old.clear hb
      exact absurd he hr.not_faults
  · rintro ⟨hmax, hvals⟩ fresh
    obtain ⟨b, hb, hnum, htest⟩ := decode_start h fresh
    refine ⟨_, decode_gives h hvals old hb, hnum, fun i hi => ?_, rfl, rfl, rfl, rfl, rfl, rfl⟩
    exact (htest i hi).trans (if_pos (by omega))

end Certificate

/-! ## The certificates of a run -/

namespace Certificate

section Operations

variable {T : Type} [CertMsg T] {E : Env} {cert cert' : Certificate T} {m : T}

theorem add_length {verify b : Bool} (h : add E cert m verify = some (cert', b))
    (hlen : cert.vals.length ≤ E.f + 1) :
    cert'.vals.length ≤ E.f + 1 := by
  unfold add at h
  simp only [Option.bind_eq_bind] at h
  split at h
  · obtain ⟨rfl, -⟩ := Prod.mk.inj (Option.some.inj h)
    exact hlen
  have hrefused : ∀ {x : Certificate T × Bool},
      some (if verify then { cert with bmap := CertMsg.id m :: cert.bmap } else cert, false) =
        some x → x.1.vals.length ≤ E.f + 1 := by
    intro x hx
    obtain rfl := Option.some.inj hx
    cases verify <;> exact hlen
  split at h
  · simp only [Option.bind_eq_some_iff] at h
    obtain ⟨v, -, counts, -, h⟩ := h
    split at h
    · split at h
      · cases h
      · obtain ⟨rfl, -⟩ := Prod.mk.inj (Option.some.inj h)
        simpa using hlen
    · exact hrefused h
  · split at h
    · exact hrefused h
    split at h
    · cases h
    obtain ⟨o, -, h⟩ := Option.bind_eq_some_iff.1 h
    cases o with
    | some i =>
      obtain ⟨v, -, h⟩ := Option.bind_eq_some_iff.1 h
      obtain ⟨rfl, -⟩ := Prod.mk.inj (Option.some.inj h)
      simpa using hlen
    | none =>
      dsimp only at h
      split at h
      · rename_i hlt
        obtain ⟨rfl, -⟩ := Prod.mk.inj (Option.some.inj h)
        rw [List.length_append, List.length_singleton]
        exact hlt
      · obtain ⟨rfl, -⟩ := Prod.mk.inj (Option.some.inj h)
        exact Nat.zero_le _

theorem addMine_bmap {b : Bool} (h : addMine E cert m = some (cert', b)) :
    ∀ i ∈ cert'.bmap, i ∈ cert.bmap ∨ i = E.id := by
  unfold addMine at h
  split at h
  · cases h
  rename_i hid
  have hid : CertMsg.id m = E.id := by
    have : CertMsg.id m = E.id ∧ CertMsg.full m = true := by simpa using hid
    exact this.1
  have hsub : ∀ i ∈ (if E.staticLog then CertMsg.id m :: cert.bmap else cert.bmap),
    i ∈ cert.bmap ∨ i = E.id := by
    intro i hi
    split at hi
    · rcases List.mem_cons.1 hi with rfl | hi
      · exact .inr hid
      · exact .inl hi
    · exact .inl hi
  simp only [Option.bind_eq_bind] at h
  cases hc : cert.c with
  | some k =>
    simp only [hc, Option.bind_eq_some_iff] at h
    obtain ⟨v, -, mt, -, h⟩ := h
    split at h
    · obtain ⟨rfl, -⟩ := Prod.mk.inj (Option.some.inj h)
      exact hsub
    · obtain ⟨rfl, -⟩ := Prod.mk.inj (Option.some.inj h)
      exact fun i hi => .inl hi
  | none =>
    simp only [hc, Option.bind_eq_some_iff] at h
    obtain ⟨o, -, h⟩ := h
    cases o with
    | some i =>
      obtain ⟨v, -, h⟩ := Option.bind_eq_some_iff.1 h
      obtain ⟨rfl, -⟩ := Prod.mk.inj (Option.some.inj h)
      exact hsub
    | none =>
      obtain ⟨rfl, -⟩ := Prod.mk.inj (Option.some.inj h)
      exact hsub

/-- What `Writable` needs beside the invariant of the counts. -/
structure Tidy (E : Env) (comp : Nat) (cert : Certificate T) : Prop where
  senders : ∀ i ∈ cert.bmap, i < E.n
  pos : ∀ v ∈ cert.vals, 0 < v.count
  length : cert.vals.length ≤ E.f + 1
  complete : cert.complete = if comp = 0 then 2 * E.f + 1 else comp

omit [CertMsg T] in
theorem tidy_clear {comp : Nat} (h : Tidy E comp cert) : Tidy E comp cert.clear :=
  ⟨by simp [clear], by simp [clear], Nat.zero_le _, h.complete⟩

omit [CertMsg T] in
theorem pos_set {vals : List (MessageVal T)} (h : ∀ v ∈ vals, 0 < v.count) (i : Nat)
    {w : MessageVal T} (hw : 0 < w.count) :
    ∀ v ∈ vals.set i w, 0 < v.count := by
  intro v hv
  rcases List.mem_or_eq_of_mem_set hv with hv | rfl
  · exact h v hv
  · exact hw

theorem step_tidy [DecidableEq T] {comp : Nat} {s s' : Tracked T} {op : Op T} (hid : E.id < E.n)
    (h : Tidy E comp s.cert) (hs : step E s op = some s') : Tidy E comp s'.cert := by
  cases op with
  | add m verify =>
    simp only [step, Option.bind_eq_bind, Option.bind_eq_some_iff, Option.some.injEq] at hs
    obtain ⟨⟨cert', b⟩, ha, rfl⟩ := hs
    have hlen := add_length ha h.length
    obtain ⟨-, -, hm, -, -, hshape⟩ | ⟨-, hshape⟩ := add_cases ha
    · have hsenders : ∀ i ∈ CertMsg.id m :: s.cert.bmap, i < E.n :=
        List.forall_mem_cons.2 ⟨hm, h.senders⟩
      obtain ⟨i, v, c, -, -, rfl, -⟩ | ⟨-, rfl⟩ := hshape
      · exact ⟨hsenders, pos_set h.pos i (Nat.succ_pos _), hlen, h.complete⟩
      · refine ⟨hsenders, fun v hv => ?_, hlen, h.complete⟩
        rcases List.mem_append.1 hv with hv | hv
        · exact h.pos v hv
        · rw [List.mem_singleton.1 hv]
          exact Nat.one_pos
    · obtain rfl | rfl | rfl := hshape
      · exact h
      · refine ⟨fun i hi => ?_, h.pos, h.length, h.complete⟩
        rcases List.mem_cons.1 hi with rfl | hi
        · -- `add` blocks a replica only
          unfold add at ha
          simp only at ha
          split at ha
          · obtain ⟨he, -⟩ := Prod.mk.inj (Option.some.inj ha)
            have hlength := congrArg (fun c => c.bmap.length) he
            simp at hlength
          · rename_i hrep
            have : CertMsg.id m < E.n ∧ CertMsg.id m ∉ s.cert.bmap := by
              simpa [Env.isReplica] using hrep
            exact this.1
        · exact h.senders i hi
      · exact tidy_clear h
  | addMine m =>
    simp only [step] at hs
    split at hs
    · cases hs
    simp only [Option.bind_eq_bind, Option.bind_eq_some_iff, Option.some.injEq] at hs
    obtain ⟨⟨cert', b⟩, ha, rfl⟩ := hs
    have hsenders : ∀ i ∈ cert'.bmap, i < E.n := by
      intro i hi
      rcases addMine_bmap ha i hi with hi | rfl
      · exact h.senders i hi
      · exact hid
    obtain ⟨-, -, ⟨-, bmap, -, ⟨i, v, -, -, -, rfl⟩ | ⟨-, rfl⟩⟩ | ⟨-, rfl⟩⟩ := addMine_cases ha
    · exact ⟨hsenders, pos_set h.pos i (Nat.succ_pos _),
        (List.length_set ..).trans_le h.length, h.complete⟩
    · refine ⟨hsenders, fun v hv => ?_, ?_, h.complete⟩
      · rcases List.mem_cons.1 hv with rfl | hv
        · exact Nat.one_pos
        · exact h.pos v (List.mem_of_mem_tail hv)
      · have := h.length
        rw [List.length_cons, List.length_tail]
        omega
    · exact h
  | markStale =>
    simp only [step, Option.bind_eq_bind, Option.bind_eq_some_iff, Option.some.injEq] at hs
    obtain ⟨cert', ha, rfl⟩ := hs
    obtain ⟨-, rfl⟩ | ⟨-, ⟨m, -, rfl⟩ | ⟨-, rfl⟩⟩ := markStale_cases ha
    · exact h
    · exact ⟨by simp, by simp, Nat.succ_le_succ (Nat.zero_le _), h.complete⟩
    · exact ⟨by simp, by simp, Nat.zero_le _, h.complete⟩
  | clear =>
    obtain rfl := Option.some.inj hs
    exact tidy_clear h
  | cvalueClear =>
    obtain rfl := Option.some.inj hs
    unfold cvalueClear
    split
    · exact h
    · exact tidy_clear h

end Operations

variable [CertMsg Stored] [LawfulCertMsg Stored] {P : Setting}

omit [LawfulCertMsg Stored] in
/-- No value has more messages than there are replicas. -/
theorem ledger_le {comp : Nat} {ops : List (Op Stored)} {s : Tracked Stored}
    (hrun : Run.run (step P.toEnv) ⟨new P.toEnv comp, []⟩ ops = some s) (hi : Inv P.toEnv s) :
    s.ledger.length ≤ P.n := by
  have hsub : s.ledger.map CertMsg.id ⊆ List.range P.n := by
    intro i hi
    obtain ⟨m, hm, rfl⟩ := List.mem_map.1 hi
    rw [List.mem_range]
    rcases run_ledger hrun m hm with hm | ⟨-, hn, -⟩ | ⟨-, he⟩
    · cases hm
    · exact hn
    · rw [he]
      exact P.id_lt
  have hle := (List.subperm_of_subset hi.ledger.nodup hsub).length_le
  rwa [List.length_map, List.length_range] at hle

theorem writable_of_run {comp : Nat} (hcomp : comp < 2 ^ 31) {ops : List (Op Stored)}
    {s : Tracked Stored} (hrun : Run.run (step P.toEnv) ⟨new P.toEnv comp, []⟩ ops = some s) :
    Writable P s.cert := by
  have hn := P.n_le.trans_lt P.max_lt
  have hneq := P.n_eq
  have hi : Inv P.toEnv s :=
    Run.invariant_of_step (fun _ _ _ hi h => step_inv hi h) (new_inv comp) hrun
  have ht : Tidy P.toEnv comp s.cert :=
    Run.invariant_of_step (fun _ _ _ ht h => step_tidy P.id_lt ht h)
      ⟨by simp [new], by simp [new], Nat.zero_le _, rfl⟩ hrun
  refine ⟨fun i hi => (ht.senders i hi).trans_le P.n_le,
    ht.pos, fun v hv => ?_, ht.length, fun k hk => ?_, fun m hm => ?_, ?_⟩
  · calc v.count ≤ (supporters s.ledger v.m).length := hi.counts v hv
      _ ≤ s.ledger.length := by
        rw [supporters, List.length_map]
        exact List.length_filter_le ..
      _ ≤ P.n := ledger_le hrun hi
  · obtain ⟨v, hv, -⟩ := hi.correct k hk
    exact (List.getElem?_eq_some_iff.1 hv).1
  · obtain ⟨-, -, -, hcv⟩ := hi.mym m hm
    cases hc : s.cert.c with
    | none => simp [cvalue, cval, hc] at hcv
    | some k =>
      obtain ⟨v, hv, -⟩ := hi.correct k hc
      rw [cvalue_of_getElem hc hv] at hcv
      exact ⟨k, v, rfl, hv, Option.some.inj hcv⟩
  · rw [ht.complete]
    split <;> omega

end Certificate

/-- `restart` clears the log and then decodes into it, where the assertion fails. -/
theorem PreparedFile.not_roundTrips (P : Setting) (old c : PreparedFile) : ¬c.RoundTrips P old := by
  rintro ⟨bs, -, hdecode⟩
  obtain ⟨r, pp, hr, -⟩ := hdecode fun _ => 0
  exact hr.not_faults faults_fault

/-- **A certificate comes back from its file** exactly if it is `Restorable`: in the heap build,
with at most 32 replicas, one with fewer than `f + 1` distinct values. A prepared certificate never
comes back. -/
theorem certificate_file_iff [CertMsg Stored] [LawfulCertMsg Stored] (P : Setting) :
    (∀ comp < 2 ^ 31, ∀ ops s,
        Run.run (Certificate.step P.toEnv) ⟨Certificate.new P.toEnv comp, []⟩ ops = some s →
      ∀ old, Certificate.RoundTrips P old s.cert ↔ Certificate.Restorable P s.cert) ∧
    ∀ old c : PreparedFile, ¬c.RoundTrips P old :=
  ⟨fun _ hcomp _ _ hrun old => Certificate.roundTrips_iff
    (Certificate.writable_of_run hcomp hrun) old, PreparedFile.not_roundTrips P⟩

/-! ## A file of prepares -/

namespace Stored

/-- The fields of a `Prepare_rep` (`Prepare.h:18-25`). -/
def prepare (m : Stored) : Prepare where
  view := Bytes.toInt ((m.bytes.drop 8).take 8)
  seqno := Bytes.toInt ((m.bytes.drop 16).take 8)
  digest := BitVec.ofNat 256 (Bytes.toNat ((m.bytes.drop 24).take 32))
  id := Bytes.toNat ((m.bytes.drop 56).take 4)
  extra := Bytes.toInt ((m.bytes.drop 2).take 2) != 0

/-- The file is one of prepares from here on. -/
instance : CertMsg Stored where
  id m := m.prepare.id
  full m := CertMsg.full m.prepare
  matchMsg a b := CertMsg.matchMsg a.prepare b.prepare

instance : LawfulCertMsg Stored where
  refl a := LawfulCertMsg.refl a.prepare
  trans h h' := LawfulCertMsg.trans (T := Prepare) h h'

/-- A prepare for the digest whose bytes are all `d`, before its authenticator. -/
def ofPrepare (d : UInt8) (id : Nat) : Stored where
  maxSize := 64
  bytes := Bytes.ofNat 4 4 ++ Bytes.ofNat 4 64 ++ Bytes.ofNat 8 0 ++
    Bytes.ofNat 8 1 ++ List.replicate 32 d ++ Bytes.ofNat 8 id
  pos := by decide
  lt := by decide
  fits := by simp

end Stored

/-- Replica 3 of four, in the heap build. -/
def fourInHeap : Setting := ⟨⟨4, 1, 3, false⟩, 32, rfl, by decide, by decide, by decide⟩

/-- One prepare in the file. -/
theorem oneValue_restored :
    Certificate.RoundTrips fourInHeap (Certificate.new fourInHeap.toEnv 0) ⟨[1],
        [⟨Stored.ofPrepare 7 1, 1⟩], none, 3, none⟩ := by
  have hrun : Run.run (Certificate.step fourInHeap.toEnv) ⟨Certificate.new fourInHeap.toEnv 0,
    []⟩ [.add (Stored.ofPrepare 7 1) true] =
      some ⟨⟨[1], [⟨Stored.ofPrepare 7 1, 1⟩], none, 3, none⟩, [Stored.ofPrepare 7 1]⟩ := by
        decide +kernel
  exact ((certificate_file_iff fourInHeap).1 0 (by decide) _ _ hrun _).2 (by decide)

/-- Two prepares for different digests are as many values as there is room for: `decode` refuses
what `encode` wrote. -/
theorem twoValues_refused :
    ∃ s, Run.run (Certificate.step fourInHeap.toEnv) ⟨Certificate.new fourInHeap.toEnv 0, []⟩
        [.add (Stored.ofPrepare 7 1) true, .add (Stored.ofPrepare 9 2) true] = some s ∧
      ¬Certificate.RoundTrips fourInHeap (Certificate.new fourInHeap.toEnv 0) s.cert := by
  have hrun : Run.run (Certificate.step fourInHeap.toEnv) ⟨Certificate.new fourInHeap.toEnv 0, []⟩
      [.add (Stored.ofPrepare 7 1) true, .add (Stored.ofPrepare 9 2) true] =
      some ⟨⟨[2, 1], [⟨Stored.ofPrepare 7 1, 1⟩, ⟨Stored.ofPrepare 9 2, 1⟩], none, 3, none⟩,
        [Stored.ofPrepare 9 2, Stored.ofPrepare 7 1]⟩ := by decide +kernel
  refine ⟨_, hrun, fun hrt => ?_⟩
  have hrestorable :=
    (Certificate.roundTrips_iff (Certificate.writable_of_run (by decide) hrun) _).1 hrt
  exact absurd hrestorable (by decide)

end TinyBFT
