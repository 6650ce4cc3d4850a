import TinyBFT.StaticCert
import TinyBFT.Log

/-!
# The checkpoint log and the checkpoint region (`checkpoint_log.cc`, `checkpoint_region.cc`)

In the static build the checkpoint certificates are in a ring of `max_out / checkpoint_interval + 1`
elements, and the messages they point to in a second ring of as many groups of `F + 1` blocks. Each
ring has its own head and head index, and `mark_stable` moves both.

| here | there |
| --- | --- |
| `CheckpointRegion` | `checkpoint_certs`, `head`, `head_index` (`checkpoint_region.cc:27-31`) |
| `index`, `store`, `load`, `truncate` | `certificate_index`, `store_checkpoint`, `load_checkpoint`, `truncate` (`:44-104`) |
| `groupBlocks`      | the blocks that `Checkpoint::persist` (`Checkpoint.h:103-107`) uses for a certificate |
| `CheckpointStore`  | `last_stable`, `elog` and the region |
| `CheckpointStore.onCert` | an operation on `elog.fetch(n)`, for messages with the sequence number `n` |
| `CheckpointStore.markStable` | `Replica::mark_stable` (`Replica.cc:1575-1611`), as far as it concerns the two rings |

Past the window `CheckpointLog::clear` keeps its head index while the region's becomes `0`, so the
rings then turn apart: a checkpoint's certificate and its blocks have different indices. Each index
still is that of one checkpoint of the range only. `truncate` of the region compares the new head
with `head_index` where `head` is meant. It returns early only if the new head is not above the head
index, which never passes the head.
-/

namespace TinyBFT

structure CheckpointRegion where
  head : Int
  headIndex : Nat
  blocks : Nat × Nat → Sized Checkpoint

namespace CheckpointRegion

variable (P : Params) (r : CheckpointRegion)

/-- `CHECKPOINT_SIZE`: `sizeof(Checkpoint_rep)` is 56. -/
def checkpointSize : Nat := 56 + P.authenticatorSize

def withinRange (n : Int) : Bool := r.head ≤ n && n ≤ r.head + P.maxOut

/-- `certificate_index`, where its assertion holds. -/
def index (n : Int) : Nat :=
  (r.headIndex + ((n - r.head) / P.ckptInterval).toNat) % CheckpointLog.maxSize P

/-- The block that `load_checkpoint` returns a pointer to, with its contents. -/
def load (n : Int) (i : Nat) : Option ((Nat × Nat) × Sized Checkpoint) :=
  if r.withinRange P n && i < P.regionF + 1 then
    some ((r.index P n, i), r.blocks (r.index P n, i)) else none

def store (m : Sized Checkpoint) (i : Nat) : Option CheckpointRegion :=
  if r.withinRange P m.msg.seqno && m.size ≤ checkpointSize P && i < P.regionF + 1 then
    some { r with blocks := Function.update r.blocks (r.index P m.msg.seqno, i) m }
  else none

def truncate (newHead : Int) : Option CheckpointRegion :=
  if newHead ≤ r.headIndex then some r
  else if newHead % P.ckptInterval ≠ 0 then none
  else if !r.withinRange P newHead then some { r with headIndex := 0, head := newHead }
  else some { r with headIndex := r.index P newHead, head := newHead }

/-- The blocks for the certificate of `n`. -/
def groupBlocks (n : Int) : Blocks (Nat × Nat) (Sized Checkpoint) where
  addr i := (r.index P n, i)
  limit := P.regionF + 1
  fits m := m.size ≤ checkpointSize P

end CheckpointRegion

namespace CheckpointRegion

/-- `Checkpoint::persist` stores the message in the group of its sequence number and returns the
pointer to it. -/
theorem persist_store (P : Params) (r : CheckpointRegion) (cert : StaticCert (Nat × Nat))
    (m : Sized Checkpoint) (i : Nat) (hin : r.withinRange P m.msg.seqno = true) :
    Held.persist (r.groupBlocks P m.msg.seqno) m (some i) ⟨cert, r.blocks⟩ =
      (r.store P m i).bind fun r' => (r'.load P m.msg.seqno i).map
        fun p => (p.1, ⟨cert, r'.blocks⟩) := by
  unfold Held.persist store groupBlocks
  by_cases hi : i < P.regionF + 1
  · by_cases hsize : m.size ≤ checkpointSize P
    · have hload : ∀ blocks, load P { r with blocks } m.msg.seqno i =
        some ((r.index P m.msg.seqno, i), blocks (r.index P m.msg.seqno, i)) := by
        intro blocks
        unfold load
        rw [if_pos]
        · rfl
        · simp only [Bool.and_eq_true, decide_eq_true_eq]
          exact ⟨hin, hi⟩
      simp only [Option.bind_eq_bind, Option.bind_some,
        hin, hi, hsize, decide_true, Bool.and_self, if_true, hload,
        Option.map_some]
    · simp only [Option.bind_eq_bind, Option.bind_some,
        hsize, decide_false, Bool.and_false, Bool.false_and, Bool.false_eq_true,
        if_false, Option.bind_none]
  · simp only [Option.bind_eq_bind, Option.bind_some, hi,
      decide_false, Bool.and_false, Bool.false_and, Bool.false_eq_true,
      if_false, Option.bind_none]

end CheckpointRegion

open Certificate (Op)

structure CheckpointStore where
  lastStable : Int
  elog : CheckpointLog (StaticCert (Nat × Nat))
  region : CheckpointRegion

namespace CheckpointStore

variable (P : Params) (E : Env)

def init (blocks : Nat × Nat → Sized Checkpoint) : CheckpointStore where
  lastStable := 0
  elog := ⟨0, 0, fun _ => ⟨[], [], none, none, 2 * E.f + 1, none⟩⟩
  region := ⟨0, 0, blocks⟩

/-- The message that an operation adds. -/
def message : Op (Sized Checkpoint) → Option (Sized Checkpoint)
  | .add m _ => some m
  | .addMine m => some m
  | _ => none

/-- The certificate of `n`, with the region's memory. -/
def held (s : CheckpointStore) (n : Int) : Held (Nat × Nat) (Sized Checkpoint) :=
  ⟨s.elog.certs (s.elog.index P n), s.region.blocks⟩

/-- The checkpoints in range. -/
def InRange (s : CheckpointStore) (n : Int) : Prop :=
  s.elog.withinRange P n = true ∧ n % P.ckptInterval = 0

instance (s : CheckpointStore) (n : Int) : Decidable (s.InRange P n) :=
  inferInstanceAs (Decidable (_ ∧ _))

/-- `elog.fetch(n)` and the operation on it. A message is added to the certificate of its own
sequence number (`Replica.cc:728`, `1523`, `1629`, `1657`). -/
def onCert (n : Int) (op : Op (Sized Checkpoint)) (s : CheckpointStore) : Option CheckpointStore :=
  if (message op).all (fun m => m.msg.seqno == n) then do
    let cert ← s.elog.fetch P n
    let t ← staticStep E (s.region.groupBlocks P n) ⟨cert, s.region.blocks⟩ op
    some { s with elog := s.elog.set P n t.cert, region := { s.region with blocks := t.mem } }
  else none

/-- The certificate of `n` and the memory become `t`. -/
def setHeld (n : Int) (t : Held (Nat × Nat) (Sized Checkpoint)) (s : CheckpointStore) :
    CheckpointStore :=
  { s with elog := s.elog.set P n t.cert, region := { s.region with blocks := t.mem } }

def markStable (n : Int) (s : CheckpointStore) : Option CheckpointStore :=
  if n ≤ s.lastStable then some s
  else do
    let elog ← s.elog.truncate P StaticCert.clear n
    let region ← s.region.truncate P n
    some ⟨n, elog, region⟩

inductive Action
  | onCert (n : Int) (op : Op (Sized Checkpoint))
  | markStable (n : Int)

def step (s : CheckpointStore) : Action → Option CheckpointStore
  | .onCert n op => s.onCert P E n op
  | .markStable n => s.markStable P n

/-! ## The places of a ring -/

/-- The element of checkpoint `n` in a ring of `max_out / checkpoint_interval + 1` elements. -/
def place (head : Int) (headIndex : Nat) (n : Int) : Nat :=
  (headIndex + ((n - head) / P.ckptInterval).toNat) % CheckpointLog.maxSize P

variable {P} {head newHead n m : Int} {hi : Nat}

theorem index_place (l : CheckpointLog (StaticCert (Nat × Nat))) (n : Int) :
    l.index P n = place P l.head l.headIndex n := rfl

theorem region_index (r : CheckpointRegion) (n : Int) :
    r.index P n = place P r.head r.headIndex n := rfl

/-- A checkpoint that is not below the head is a number of intervals away from it. -/
theorem exists_offset (hhead : head % P.ckptInterval = 0) (hn : n % P.ckptInterval = 0)
    (hle : head ≤ n) :
    ∃ a : Nat, n = head + a * P.ckptInterval := by
  have hd : (P.ckptInterval : Int) ∣ n - head :=
    Int.dvd_sub (Int.dvd_of_emod_eq_zero hn) (Int.dvd_of_emod_eq_zero hhead)
  obtain ⟨c, hc⟩ := hd
  have hpos := P.ckptInterval_pos
  have hc0 : 0 ≤ c := by
    by_contra hneg
    have : (P.ckptInterval : Int) * c < 0 := Int.mul_neg_of_pos_of_neg (by omega) (by omega)
    omega
  refine ⟨c.toNat, ?_⟩
  rw [Int.toNat_of_nonneg hc0, Int.mul_comm]
  omega

theorem place_offset (a : Nat) :
    place P head hi (head + a * P.ckptInterval) = (hi + a) % CheckpointLog.maxSize P := by
  have hpos := P.ckptInterval_pos
  have hdiv : (head + a * P.ckptInterval - head) / (P.ckptInterval : Int) = a := by
    rw [add_sub_cancel_left]
    exact Int.mul_ediv_cancel _ (by omega)
  unfold place
  rw [hdiv, Int.toNat_natCast]

theorem maxOut_lt_size (P : Params) : P.maxOut < CheckpointLog.maxSize P * P.ckptInterval := by
  have := Nat.lt_mul_div_succ P.maxOut P.ckptInterval_pos
  rw [Nat.mul_comm]
  exact this

/-- The offset of a checkpoint of the window is less than the size of the ring. -/
theorem offset_lt {a : Nat} (h : head + a * P.ckptInterval ≤ head + P.maxOut) :
    a < CheckpointLog.maxSize P := by
  have hlt := maxOut_lt_size P
  have hle : a * P.ckptInterval ≤ P.maxOut := by
    have : ((a * P.ckptInterval : Nat) : Int) ≤ P.maxOut := by
      push_cast
      omega
    omega
  exact Nat.lt_of_mul_lt_mul_right (Nat.lt_of_le_of_lt hle hlt)

/-- Two checkpoints of the window have different places. -/
theorem place_inj (hhead : head % P.ckptInterval = 0) (hn : n % P.ckptInterval = 0)
    (hm : m % P.ckptInterval = 0) (hn' : head ≤ n ∧ n ≤ head + P.maxOut)
    (hm' : head ≤ m ∧ m ≤ head + P.maxOut) (h : place P head hi n = place P head hi m) : n = m := by
  obtain ⟨a, rfl⟩ := exists_offset hhead hn hn'.1
  obtain ⟨b, rfl⟩ := exists_offset hhead hm hm'.1
  rw [place_offset, place_offset] at h
  have hmod : a ≡ b [MOD CheckpointLog.maxSize P] := Nat.ModEq.add_left_cancel' hi h
  rw [Nat.ModEq, Nat.mod_eq_of_lt (offset_lt hn'.2), Nat.mod_eq_of_lt (offset_lt hm'.2)] at hmod
  rw [hmod]

/-- A checkpoint keeps its place when the head moves up to it and takes the head index along. -/
theorem place_advance (hhead : head % P.ckptInterval = 0) (hnew : newHead % P.ckptInterval = 0)
    (hn : n % P.ckptInterval = 0) (h1 : head ≤ newHead) (h2 : newHead ≤ n) :
    place P newHead (place P head hi newHead) n = place P head hi n := by
  obtain ⟨a, rfl⟩ := exists_offset hhead hnew h1
  obtain ⟨b, rfl⟩ := exists_offset hnew hn h2
  have hsum : head + (a : Int) * P.ckptInterval + b * P.ckptInterval =
    head + ((a + b : Nat) : Int) * P.ckptInterval := by
    push_cast
    ring
  rw [place_offset, hsum, place_offset, place_offset, Nat.mod_add_mod, Nat.add_assoc]

/-- A checkpoint beyond the window has the place of one that is a ring's length before it. -/
theorem exists_place (hhead : head % P.ckptInterval = 0) (hn : n % P.ckptInterval = 0)
    (h1 : head + P.maxOut < n) (h2 : n ≤ newHead + P.maxOut) :
    ∃ a : Nat, head + a * P.ckptInterval < newHead ∧
      place P head hi (head + a * P.ckptInterval) = place P head hi n := by
  have hpos := P.ckptInterval_pos
  have hsize := maxOut_lt_size P
  obtain ⟨c, rfl⟩ := exists_offset hhead hn (by omega)
  have hc : CheckpointLog.maxSize P ≤ c := by
    have hlt : P.maxOut < c * P.ckptInterval := by
      have : ((P.maxOut : Nat) : Int) < ((c * P.ckptInterval : Nat) : Int) := by
        push_cast
        omega
      omega
    exact Nat.div_lt_iff_lt_mul hpos |>.2 hlt
  obtain ⟨a, rfl⟩ := Nat.exists_eq_add_of_le hc
  refine ⟨a, ?_, ?_⟩
  · have hsplit : ((CheckpointLog.maxSize P + a : Nat) : Int) * P.ckptInterval =
        ((CheckpointLog.maxSize P * P.ckptInterval : Nat) : Int) + a * P.ckptInterval := by
      push_cast
      ring
    omega
  · rw [place_offset, place_offset, Nat.add_left_comm, Nat.add_mod_left]

/-- The checkpoints that the loop of `CheckpointLog::truncate` clears. -/
theorem mem_clearBelow (l : CheckpointLog (StaticCert (Nat × Nat))) (k : Nat) :
    ((List.range ((newHead - l.head + P.ckptInterval - 1) / P.ckptInterval).toNat).any
        fun j : Nat =>
        l.index P (l.head + j * P.ckptInterval) == k) = true ↔
      ∃ a : Nat, l.head + a * P.ckptInterval < newHead ∧
        place P l.head l.headIndex (l.head + a * P.ckptInterval) = k := by
  have hpos := P.ckptInterval_pos
  have hcount : ∀ a :
    Nat, a < ((newHead - l.head + P.ckptInterval - 1) / (P.ckptInterval : Int)).toNat ↔
      l.head + a * P.ckptInterval < newHead := by
    intro a
    rw [Int.lt_toNat, Int.lt_iff_add_one_le, Int.le_ediv_iff_mul_le (by omega), Int.add_mul]
    omega
  simp only [List.any_eq_true, List.mem_range, beq_iff_eq, hcount]
  rfl

/-- **`CheckpointLog::truncate`** keeps the certificates of the checkpoints that stay in range, and
clears the others. -/
theorem elog_truncate {l : CheckpointLog (StaticCert (Nat × Nat))}
    (hhead : l.head % P.ckptInterval = 0) (hnew : newHead % P.ckptInterval = 0)
    (hlt : l.head < newHead) :
    ∃ l', l.truncate P StaticCert.clear newHead = some l' ∧ l'.head = newHead ∧
      ∀ n : Int, n % P.ckptInterval = 0 → newHead ≤ n → n ≤ newHead + P.maxOut →
        (n ≤ l.head + P.maxOut → l'.certs (l'.index P n) = l.certs (l.index P n)) ∧
        (l.head + P.maxOut < n → ∃ k, l'.certs (l'.index P n) = (l.certs k).clear) := by
  unfold CheckpointLog.truncate
  rw [if_neg (by omega), if_neg (by simpa using hnew)]
  cases hin : l.withinRange P newHead with
  | false =>
    have hfar : l.head + P.maxOut < newHead := by
      simp only [CheckpointLog.withinRange, Bool.and_eq_false_iff, decide_eq_false_iff_not] at hin
      omega
    refine ⟨_, if_pos rfl, rfl, fun n hn h1 h2 => ⟨fun h => by omega, fun _ => ⟨_, rfl⟩⟩⟩
  | true =>
    have hnear : newHead ≤ l.head + P.maxOut := by
      simp only [CheckpointLog.withinRange, Bool.and_eq_true, decide_eq_true_eq] at hin
      exact hin.2
    refine ⟨_, if_neg (by simp), rfl, fun n hn h1 h2 => ?_⟩
    have hplace : place P newHead (l.index P newHead) n = place P l.head l.headIndex n :=
      place_advance hhead hnew hn (by omega) h1
    rw [index_place, index_place, index_place, ← index_place, hplace]
    unfold CheckpointLog.clearBelow
    dsimp only
    constructor
    · intro hkeep
      rw [if_neg]
      rw [mem_clearBelow]
      rintro ⟨a, ha, hsame⟩
      have hinj := place_inj hhead (by rw [Int.add_mul_emod_self_right]; exact hhead) hn
        ⟨Int.le_add_of_nonneg_right (by positivity), by omega⟩ ⟨by omega, hkeep⟩ hsame
      omega
    · intro hbeyond
      rw [if_pos ((mem_clearBelow l _).2 (exists_place hhead hn hbeyond h2))]
      exact ⟨_, rfl⟩

/-- **`checkpoint_region::truncate`** leaves every checkpoint that stays in range its blocks. -/
theorem region_truncate {r : CheckpointRegion} (hhead : r.head % P.ckptInterval = 0)
    (hnew : newHead % P.ckptInterval = 0) (hle : (r.headIndex : Int) ≤ r.head)
    (hlt : r.head < newHead) :
    ∃ r', r.truncate P newHead = some r' ∧ r'.head = newHead ∧
      (r'.headIndex : Int) ≤ newHead ∧ r'.blocks = r.blocks ∧
      ∀ n : Int, n % P.ckptInterval = 0 → newHead ≤ n →
        n ≤ r.head + P.maxOut → r'.index P n = r.index P n := by
  unfold CheckpointRegion.truncate
  rw [if_neg (by omega), if_neg (by simpa using hnew)]
  cases hin : r.withinRange P newHead with
  | false =>
    have hfar : r.head + P.maxOut < newHead := by
      simp only [CheckpointRegion.withinRange, Bool.and_eq_false_iff,
        decide_eq_false_iff_not] at hin
      omega
    exact ⟨_, if_pos rfl, rfl, by simp; omega, rfl, fun n _ h1 h2 => by omega⟩
  | true =>
    refine ⟨_, if_neg (by simp), rfl, ?_,
      rfl, fun n hn h1 _ => place_advance hhead hnew hn (by omega) h1⟩
    obtain ⟨a, rfl⟩ := exists_offset hhead hnew (by omega)
    have hmod := Nat.mod_le (r.headIndex + a) (CheckpointLog.maxSize P)
    have hmul : (a : Int) ≤ a * P.ckptInterval := by
      have := P.ckptInterval_pos
      have : a ≤ a * P.ckptInterval := Nat.le_mul_of_pos_right a this
      exact_mod_cast this
    simp only [region_index, place_offset]
    omega

/-! ## Runs -/

/-- The heads are the last stable checkpoint, and each checkpoint in range has its values in its own
blocks. -/
structure Aligned (P : Params) (E : Env) (s : CheckpointStore) : Prop where
  elog_head : s.elog.head = s.lastStable
  region_head : s.region.head = s.lastStable
  stable : s.lastStable % P.ckptInterval = 0
  headIndex_le : (s.region.headIndex : Int) ≤ s.lastStable
  placed : ∀ n, s.InRange P n → (s.held P n).Placed E (s.region.groupBlocks P n)

variable {E : Env} {s s' : CheckpointStore}

theorem InRange.bounds (h : s.InRange P n) :
    s.elog.head ≤ n ∧ n ≤ s.elog.head + P.maxOut ∧ n % P.ckptInterval = 0 := by
  obtain ⟨hr, hn⟩ := h
  simp only [CheckpointLog.withinRange, Bool.and_eq_true, decide_eq_true_eq] at hr
  exact ⟨hr.1, hr.2, hn⟩

theorem inRange_iff :
    s.InRange P n ↔ s.elog.head ≤ n ∧ n ≤ s.elog.head + P.maxOut ∧ n % P.ckptInterval = 0 := by
  refine ⟨InRange.bounds, fun h => ⟨?_, h.2.2⟩⟩
  simp only [CheckpointLog.withinRange, Bool.and_eq_true, decide_eq_true_eq]
  exact ⟨h.1, h.2.1⟩

/-- Checkpoints in range have certificates and blocks of their own. -/
theorem Aligned.apart (h : Aligned P E s) (hn : s.InRange P n) (hm : s.InRange P m) (hne : n ≠ m) :
    s.elog.index P n ≠ s.elog.index P m ∧ s.region.index P n ≠ s.region.index P m := by
  obtain ⟨hn1, hn2, hn3⟩ := hn.bounds
  obtain ⟨hm1, hm2, hm3⟩ := hm.bounds
  have hstable := h.stable
  constructor
  · intro he
    rw [← h.elog_head] at hstable
    exact hne (place_inj hstable hn3 hm3 ⟨hn1, hn2⟩ ⟨hm1, hm2⟩ he)
  · intro he
    rw [h.elog_head] at hn1 hn2 hm1 hm2
    rw [← h.region_head] at hstable hn1 hn2 hm1 hm2
    exact hne (place_inj hstable hn3 hm3 ⟨hn1, hn2⟩ ⟨hm1, hm2⟩ he)

theorem aligned_init (blocks : Nat × Nat → Sized Checkpoint) : Aligned P E (init E blocks) where
  elog_head := rfl
  region_head := rfl
  stable := by simp [init]
  headIndex_le := by simp [init]
  placed n _ := by
    refine ⟨?_, ?_, .inl ⟨?_, ?_⟩, ?_⟩ <;> simp [held, init, Held.addrs]

/-- What `mark_stable` leaves, and what it makes room for. -/
structure Moved (P : Params) (s s' : CheckpointStore) : Prop where
  retained : ∀ n, s.InRange P n → s'.InRange P n →
    s'.held P n = s.held P n ∧ s'.region.index P n = s.region.index P n
  entered : ∀ n, ¬ s.InRange P n → s'.InRange P n → ∃ k,
    s'.elog.certs (s'.elog.index P n) = (s.elog.certs k).clear

theorem Aligned.markStable (h : Aligned P E s) (hs : s.markStable P n = some s') :
    Aligned P E s' ∧ Moved P s s' := by
  unfold CheckpointStore.markStable at hs
  split at hs
  · obtain rfl := Option.some.inj hs
    exact ⟨h, fun n _ _ => ⟨rfl, rfl⟩, fun n hout hin => absurd hin hout⟩
  rename_i hlt
  have hstable := h.stable
  have hmul : n % P.ckptInterval = 0 := by
    by_contra hne
    have hnone : s.elog.truncate P StaticCert.clear n = none := by
      unfold CheckpointLog.truncate
      rw [h.elog_head, if_neg hlt, if_pos hne]
    rw [hnone] at hs
    cases hs
  obtain ⟨l, hl, hlhead, hcerts⟩ := elog_truncate (l := s.elog)
    (by rw [h.elog_head]; exact hstable) hmul (by rw [h.elog_head]; omega)
  obtain ⟨r, hr, hrhead, hrle, hblocks, hindex⟩ :=
    region_truncate (r := s.region) (by rw [h.region_head]; exact hstable) hmul
    (by rw [h.region_head]; exact h.headIndex_le) (by rw [h.region_head]; omega)
  rw [hl, hr] at hs
  obtain rfl := Option.some.inj hs
  rw [h.elog_head] at hcerts
  rw [h.region_head] at hindex
  have hmoved : Moved P s ⟨n, l, r⟩ := by
    constructor
    · intro m hin hin'
      obtain ⟨h1, h2, h3⟩ := hin.bounds
      obtain ⟨h1', h2', -⟩ := hin'.bounds
      simp only [hlhead] at h1' h2'
      rw [h.elog_head] at h1 h2
      refine ⟨?_, hindex m h3 h1' h2⟩
      simp only [held, hblocks, (hcerts m h3 h1' h2').1 h2]
    · intro m hout hin'
      obtain ⟨h1', h2', h3⟩ := hin'.bounds
      simp only [hlhead] at h1' h2'
      refine (hcerts m h3 h1' h2').2 ?_
      rw [inRange_iff, h.elog_head] at hout
      by_contra hle
      exact hout ⟨by omega, by omega, h3⟩
  refine ⟨⟨hlhead, hrhead, hmul, hrle, fun m hin' => ?_⟩, hmoved⟩
  by_cases hin : s.InRange P m
  · obtain ⟨hheld, hidx⟩ := hmoved.retained m hin hin'
    have hgroup : r.groupBlocks P m = s.region.groupBlocks P m := by
      unfold CheckpointRegion.groupBlocks
      rw [hidx]
    rw [hheld, hgroup]
    exact h.placed m hin
  · obtain ⟨k, hk⟩ := hmoved.entered m hin hin'
    have hheld : held P ⟨n, l, r⟩ m = Held.clear ⟨s.elog.certs k, r.blocks⟩ := by
      unfold held Held.clear
      rw [hk]
    rw [hheld]
    exact Held.placed_clear

/-- The window moves, and no certificate asks for more or fewer messages than before. -/
theorem markStable_fields (hlt : ¬n ≤ s.lastStable) (hs : s.markStable P n = some s') :
    s'.lastStable = n ∧ ∀ k, (s'.elog.certs k).complete = (s.elog.certs k).complete := by
  rw [CheckpointStore.markStable, if_neg hlt] at hs
  simp only [Option.bind_eq_bind, Option.bind_eq_some_iff, Option.some.injEq] at hs
  obtain ⟨l, hl, r, -, rfl⟩ := hs
  refine ⟨rfl, fun k => ?_⟩
  unfold CheckpointLog.truncate at hl
  split at hl
  · obtain rfl := Option.some.inj hl
    rfl
  split at hl
  · cases hl
  split at hl
  · obtain rfl := Option.some.inj hl
    rfl
  · obtain rfl := Option.some.inj hl
    unfold CheckpointLog.clearBelow
    dsimp only
    split <;> rfl

/-- A change of the certificate and the blocks of one checkpoint leaves the other checkpoints as
they are. -/
theorem Aligned.setHeld (h : Aligned P E s) (hin : s.InRange P n)
    {t : Held (Nat × Nat) (Sized Checkpoint)} (hplaced : t.Placed E (s.region.groupBlocks P n))
    (hmem : ∀ a, (∀ i, a ≠ (s.region.groupBlocks P n).addr i) → t.mem a = s.region.blocks a) :
    Aligned P E (s.setHeld P n t) ∧ (s.setHeld P n t).held P n = t ∧
      ∀ m, s.InRange P m → m ≠ n → ((s.setHeld P n t).held P m).cert = (s.held P m).cert ∧
        ((s.setHeld P n t).held P m).view = (s.held P m).view := by
  have hself : (s.setHeld P n t).held P n = t := by
    simp only [held, CheckpointStore.setHeld, CheckpointLog.set,
      CheckpointLog.index, Function.update_self]
  have hcert : ∀ m, s.InRange P m → m ≠ n →
    ((s.setHeld P n t).held P m).cert = (s.held P m).cert := by
    intro m hm hne
    exact Function.update_of_ne (h.apart hm hin hne).1 _ _
  have hkeep : ∀ m, s.InRange P m → m ≠ n → ∀ a ∈ (s.held P m).addrs,
    t.mem a = s.region.blocks a := by
    intro m hm hne a ha
    obtain ⟨k, hk⟩ := List.mem_iff_getElem?.1 ha
    obtain ⟨j, rfl⟩ := (h.placed m hm).block hk
    exact hmem _ fun i he => (h.apart hm hin hne).2 (Prod.mk.inj he).1
  refine ⟨⟨h.elog_head, h.region_head, h.stable, h.headIndex_le, fun m hm => ?_⟩,
    hself, fun m hm hne => ⟨hcert m hm hne, ?_⟩⟩
  · by_cases hne : m = n
    · subst hne
      rw [hself]
      exact hplaced
    · exact ((h.placed m hm).frame (hcert m hm hne) (hkeep m hm hne)).1
  · exact (h.placed m hm).frame_view (hcert m hm hne) (hkeep m hm hne)

theorem onCert_cases {op : Op (Sized Checkpoint)} (hs : s.onCert P E n op = some s') :
    ∃ t, staticStep E (s.region.groupBlocks P n) (s.held P n) op = some t ∧ s.InRange P n ∧
      (∀ m, message op = some m → m.msg.seqno = n) ∧ s' = s.setHeld P n t := by
  simp only [CheckpointStore.onCert, Option.ite_none_right_eq_some,
    Option.bind_eq_bind, Option.bind_eq_some_iff, Option.some.injEq] at hs
  obtain ⟨hmsg, cert, hfetch, t, ht, rfl⟩ := hs
  obtain ⟨hin, rfl⟩ : s.InRange P n ∧ s.elog.certs (s.elog.index P n) = cert := by
    simpa [CheckpointLog.fetch, InRange] using hfetch
  refine ⟨t, ht, hin, fun m hm => ?_, rfl⟩
  rw [hm] at hmsg
  simpa using hmsg

/-- An operation changes the certificate and the blocks of its own checkpoint only. -/
theorem Aligned.onCert (hE : E.staticLog = true) (hf : E.f ≤ P.regionF) (h : Aligned P E s)
    {op : Op (Sized Checkpoint)} (hs : s.onCert P E n op = some s') :
    Aligned P E s' ∧ certStep E (s.held P n).view op = some (s'.held P n).view ∧
      ∀ m, s.InRange P m → m ≠ n → (s'.held P m).cert = (s.held P m).cert ∧
        (s'.held P m).view = (s.held P m).view := by
  obtain ⟨t, ht, hin, -, rfl⟩ := onCert_cases hs
  have hinj : Function.Injective (s.region.groupBlocks P n).addr := fun i j he => (Prod.mk.inj he).2
  have hlim : E.f + 1 ≤ (s.region.groupBlocks P n).limit := Nat.succ_le_succ hf
  obtain ⟨hview, hplaced⟩ := staticStep_view hinj hlim hE (h.placed n hin) ht
  obtain ⟨hal, hself, hother⟩ := h.setHeld hin hplaced fun a ha => staticStep_mem ht ha
  exact ⟨hal, by rw [hself]; exact hview, hother⟩

theorem aligned_run (hE : E.staticLog = true) (hf : E.f ≤ P.regionF) {as : List Action}
    (hi : Aligned P E s) (hr : Run.run (step P E) s as = some s') : Aligned P E s' := by
  refine Run.invariant_of_step (fun u a u' hu ha => ?_) hi hr
  cases a with
  | onCert n op => exact (hu.onCert hE hf ha).1
  | markStable n => exact (hu.markStable ha).1

/-- **The checkpoint log and the region stay aligned.** After every run, different checkpoints in
range share neither a certificate nor a block, and each has its values in distinct blocks of its
own; an operation on one leaves the others as they are; a checkpoint that `mark_stable` retains
keeps its certificate, its messages and its blocks, and one that it brings into range has an empty
certificate. -/
theorem checkpoints_aligned (cfg : Cfg) (id : Nat) (blocks : Nat × Nat → Sized Checkpoint)
    {as : List Action} {s : CheckpointStore} (hr : Run.run
      (step cfg.P { cfg.env id with staticLog := true }) (init (cfg.env id) blocks) as = some s) :
    (∀ n, s.elog.withinRange cfg.P n = s.region.withinRange cfg.P n) ∧
      (∀ n m, s.InRange cfg.P n → s.InRange cfg.P m → n ≠ m →
          s.elog.index cfg.P n ≠ s.elog.index cfg.P m ∧
        ∀ i j, (s.region.groupBlocks cfg.P n).addr i ≠ (s.region.groupBlocks cfg.P m).addr j) ∧
      (∀ n, s.InRange cfg.P n → (s.held cfg.P n).addrs.Nodup ∧
        ∀ a ∈ (s.held cfg.P n).addrs, ∃ i, a = (s.region.groupBlocks cfg.P n).addr i) ∧
      (∀ n op s', s.onCert cfg.P { cfg.env id with staticLog := true } n op = some s' → ∀ m,
          s.InRange cfg.P m → m ≠ n →
        (s'.held cfg.P m).cert = (s.held cfg.P m).cert ∧
          (s'.held cfg.P m).read = (s.held cfg.P m).read) ∧
      ∀ h s', s.markStable cfg.P h = some s' → ∀ n, s'.InRange cfg.P n →
        (s.InRange cfg.P n → s'.held cfg.P n = s.held cfg.P n ∧
            s'.region.groupBlocks cfg.P n = s.region.groupBlocks cfg.P n) ∧
        (¬ s.InRange cfg.P n → (s'.held cfg.P n).cert.Empty) := by
  have hf : ({ cfg.env id with staticLog := true } : Env).f ≤ cfg.P.regionF := by
    have := cfg.n_le
    simp only [Cfg.env, Params.regionF]
    omega
  have h := aligned_run rfl hf (aligned_init blocks) hr
  refine ⟨fun n => ?_, fun n m hn hm hne => ?_,
    fun n hn => ⟨?_, fun a ha => ?_⟩, fun n op s' hs m hm hne => ?_, fun n s' hs m hm => ⟨?_, ?_⟩⟩
  · unfold CheckpointLog.withinRange CheckpointRegion.withinRange
    rw [h.elog_head, h.region_head]
  · obtain ⟨hi, hb⟩ := h.apart hn hm hne
    exact ⟨hi, fun i j he => hb (Prod.mk.inj he).1⟩
  · exact (h.placed n hn).nodup fun i j he => (Prod.mk.inj he).2
  · obtain ⟨i, hi⟩ := List.mem_iff_getElem?.1 ha
    exact (h.placed n hn).block hi
  · obtain ⟨hcert, hview⟩ := (h.onCert rfl hf hs).2.2 m hm hne
    exact ⟨hcert, congrArg Certificate.vals hview⟩
  · intro hin
    obtain ⟨hheld, hidx⟩ := (h.markStable hs).2.retained m hin hm
    refine ⟨hheld, ?_⟩
    unfold CheckpointRegion.groupBlocks
    rw [hidx]
  · intro hout
    obtain ⟨k, hk⟩ := (h.markStable hs).2.entered m hout hm
    simp only [held, hk]
    exact ⟨rfl, rfl, rfl, rfl⟩

/-- The own checkpoint 2 is added and another replica's checkpoint 4, and 2 becomes stable. -/
def twoCheckpoints : List Action :=
  [.onCert 2 (.addMine ⟨⟨2, 7, 0, false⟩, 152⟩),
    .onCert 4 (.add ⟨⟨4, 8, 1, false⟩, 152⟩ true), .markStable 2]

theorem checkpoints_aligned_two :
    ∃ s, Run.run (step Replica.fourReplicas.P { Replica.fourReplicas.env 0 with staticLog := true })
        (init (Replica.fourReplicas.env 0) fun _ => ⟨⟨0, 0, 0, false⟩, 0⟩) twoCheckpoints = some s ∧
      s.elog.index Replica.fourReplicas.P 4 ≠ s.elog.index Replica.fourReplicas.P 6 ∧
      (s.held Replica.fourReplicas.P 4).addrs.Nodup := by
  obtain ⟨s, hs⟩ :
    ∃ s, Run.run (step Replica.fourReplicas.P { Replica.fourReplicas.env 0 with staticLog := true })
      (init (Replica.fourReplicas.env 0) fun _ => ⟨⟨0, 0, 0, false⟩, 0⟩) twoCheckpoints = some s :=
        ⟨_, rfl⟩
  have hhead : s.elog.head = 2 := by
    obtain rfl := Option.some.inj hs
    rfl
  have hin : ∀ n, n = 4 ∨ n = 6 → s.InRange Replica.fourReplicas.P n := by
    rintro n (rfl | rfl) <;> rw [inRange_iff, hhead] <;> decide
  have h := checkpoints_aligned Replica.fourReplicas 0 _ hs
  exact ⟨s, hs, (h.2.1 4 6 (hin 4 (.inl rfl)) (hin 6 (.inr rfl)) (by decide)).1,
    (h.2.2.1 4 (hin 4 (.inl rfl))).1⟩

end CheckpointStore

end TinyBFT
