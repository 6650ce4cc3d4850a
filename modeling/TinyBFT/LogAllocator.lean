import TinyBFT.Basic
import TinyBFT.Lib.Run
import Mathlib.Data.List.Count
import Mathlib.Data.Nat.Bitwise

/-!
# The log allocator (`Log_allocator.{h,cc}`)

Memory comes in chunks. The blocks of the current chunk are cut off one after another; a chunk
counts its live blocks, and one more while it is the current one. Only the last block of the current
chunk can be given back or resized in place.

| here | there |
| --- | --- |
| `Chunk`, `data` | the head of a chunk and where its bytes start (`Log_allocator.h:75-86`), on a machine of 64 bits |
| `LogAllocator` | `Log_allocator` and its memory: `chunk c` is the head at address `c`; `calls` counts the calls of `mmap` |
| `mmap k`       | what the `k`-th call of `mmap` of a run returns; the address that it is asked for is a hint |
| `takeChunk`, `allocChunk` | `alloc_chunk` (`Log_allocator.cc:33-82`), its choice of a chunk and all of it |
| `mallocLoop`, `malloc` | the loop of `malloc`, whose fuel bounds the iterations, and `malloc` (`Log_allocator.h:100-130`) |
| `free`, `realloc` | `free`, `realloc` (`Log_allocator.h:141-178`) |
| `Heap`, `step` | the allocator with the blocks that are live, and a call on one of them |

`none` is a failed assertion, `th_fail`, or a loop that does not end. The mask by which `free` and
`realloc` find a chunk needs the chunk size to be a power of two, as that of the one allocator is
(`Message.cc:143`).
-/

namespace TinyBFT

namespace LogAllocator

structure Cfg where
  shift : Nat
  nc : Nat
  /-- A chunk is a page at least. -/
  shift_ge : 12 ≤ shift
  nc_pos : 0 < nc

def Cfg.chunkSize (cfg : Cfg) : Nat := 2 ^ cfg.shift

def sizeofChunk : Nat := 32

def data (c : Nat) : Nat := c + 24

structure Chunk where
  next : Nat
  max : Nat
  nb : Int

end LogAllocator

structure LogAllocator where
  chunk : Nat → LogAllocator.Chunk
  mem : Nat → UInt8
  cur : Nat
  chunks : Nat
  numChunks : Nat
  freeChunks : Nat
  calls : Nat

namespace LogAllocator

variable (cfg : Cfg) (mmap : Nat → Option Nat)

def setChunk (s : LogAllocator) (c : Nat) (x : Chunk) : LogAllocator :=
  { s with chunk := Function.update s.chunk c x }

/-- The loop over `mmap`, with the attempts that are left: an address must be a multiple of the
chunk size. -/
def mapArray : Nat → Nat → Option (Nat × Nat)
  | 0, _ => none
  | attempts + 1, calls =>
    match mmap calls with
    | some addr =>
      if addr % cfg.chunkSize = 0 then some (addr, calls + 1) else mapArray attempts (calls + 1)
    | none => mapArray attempts (calls + 1)

/-- A chunk from the free list, or the next of the array, or the first of a new array. -/
def takeChunk (s : LogAllocator) : Option (LogAllocator × Nat) :=
  if s.freeChunks ≠ 0 then some ({ s with freeChunks := (s.chunk s.freeChunks).next }, s.freeChunks)
  else if s.numChunks < cfg.nc then
    some ({ s with numChunks := s.numChunks + 1 }, s.chunks + cfg.chunkSize * s.numChunks)
  else
    (mapArray cfg mmap 1000 s.calls).map fun r =>
      ({ s with chunks := r.1, numChunks := 1, calls := r.2 }, r.1)

def allocChunk (s : LogAllocator) : Option (LogAllocator × Nat) :=
  (takeChunk cfg mmap s).map fun r =>
    (r.1.setChunk r.2 ⟨data r.2, data r.2 + (cfg.chunkSize - sizeofChunk), 1⟩, r.2)

/-- The constructor. -/
def init : Option LogAllocator :=
  (allocChunk cfg mmap ⟨fun _ => ⟨0, 0, 0⟩, fun _ => 0,
    0, cfg.chunkSize * cfg.nc, cfg.nc, 0, 0⟩).map fun r => { r.1 with cur := r.2 }

/-- `bzero`, or the magic number of `free`: new bytes from `p` to `p + n`. -/
def fill (s : LogAllocator) (p n : Nat) (v : Nat → UInt8) : LogAllocator :=
  { s with mem := fun x => if p ≤ x ∧ x < p + n then v (x - p) else s.mem x }

def mallocLoop (sz : Nat) : Nat → LogAllocator → Option (LogAllocator × Nat)
  | 0, _ => none
  | fuel + 1, s =>
    let c := s.chunk s.cur
    if c.next + sz < c.max then
      some ((s.setChunk s.cur ⟨c.next + sz, c.max, c.nb + 1⟩).fill c.next sz fun _ => 0, c.next)
    else if c.nb = 1 then mallocLoop sz fuel (s.setChunk s.cur ⟨data s.cur, c.max, c.nb⟩)
    else
      (allocChunk cfg mmap (s.setChunk s.cur ⟨c.next, c.max, c.nb - 1⟩)).bind
        fun r => mallocLoop sz fuel { r.1 with cur := r.2 }

/-- Two iterations are as good as any number (`mallocLoop_fuel`). -/
def malloc (s : LogAllocator) (sz : Nat) : Option (LogAllocator × Nat) :=
  if 0 < sz ∧ sz < cfg.chunkSize ∧ alignedSize sz ≠ 0 then mallocLoop cfg mmap sz 2 s else none

/-- `p & ~(chunk_size - 1)`. -/
def chunkOf (p : Nat) : Nat := Nat.ldiff p (cfg.chunkSize - 1)

def magic (i : Nat) : UInt8 := UInt8.ofNat (0x386592a7 / 256 ^ (i % 4))

def freeChunk (s : LogAllocator) (c : Nat) : LogAllocator :=
  { s.setChunk c { s.chunk c with next := s.freeChunks } with freeChunks := c }

/-- The bytes of a last block are free again; the chunk `pc` has a block less. -/
def giveBack (s : LogAllocator) (pc p sz : Nat) : LogAllocator :=
  let c := s.chunk pc
  s.setChunk pc ⟨if pc = s.cur ∧ p + sz = c.next then c.next - sz else c.next, c.max, c.nb - 1⟩

def free (s : LogAllocator) (p sz : Nat) : Option LogAllocator :=
  if alignedSize sz ≠ 0 ∧ p % 8 = 0 then
    let pc := chunkOf cfg p
    let s := (s.fill p (sz / 4 * 4) magic).giveBack pc p sz
    if (s.chunk pc).nb = 0 then if pc = s.cur then none else some (s.freeChunk pc) else some s
  else none

def realloc (s : LogAllocator) (p osz nsz : Nat) : LogAllocator × Bool :=
  let c := s.chunk s.cur
  if chunkOf cfg p = s.cur ∧ p + osz = c.next ∧ c.next + nsz - osz < c.max then
    (s.setChunk s.cur ⟨c.next + nsz - osz, c.max, c.nb⟩, true)
  else (s, false)

/-! ## The blocks that are live -/

structure HeapBlock where
  p : Nat
  sz : Nat
deriving DecidableEq, Repr

def HeapBlock.Has (b : HeapBlock) (x : Nat) : Prop := b.p ≤ x ∧ x < b.p + b.sz

instance (b : HeapBlock) (x : Nat) : Decidable (b.Has x) := inferInstanceAs (Decidable (_ ∧ _))

/-- The blocks share no byte. -/
def Apart (b b' : HeapBlock) : Prop := ∀ x, b.Has x → ¬b'.Has x

structure Heap where
  a : LogAllocator
  live : List HeapBlock

inductive Op where
  | malloc (sz : Nat)
  | free (b : HeapBlock)
  | realloc (b : HeapBlock) (nsz : Nat)
  /-- The owner of a block writes to it. -/
  | write (x : Nat) (v : UInt8)
deriving DecidableEq, Repr

/-- A call on a live block, with its current size; there is no other. -/
def step (s : Heap) : Op → Option Heap
  | .malloc sz => (s.a.malloc cfg mmap sz).map fun r => ⟨r.1, ⟨r.2, sz⟩ :: s.live⟩
  | .free b => if b ∈ s.live then (s.a.free cfg b.p b.sz).map fun a => ⟨a, s.live.erase b⟩ else none
  | .realloc b nsz =>
    if b ∈ s.live then
      let r := s.a.realloc cfg b.p b.sz nsz
      some ⟨r.1, if r.2 then ⟨b.p, nsz⟩ :: s.live.erase b else s.live⟩
    else none
  | .write x v =>
    if ∃ b ∈ s.live, b.Has x then
      some ⟨{ s.a with mem := Function.update s.a.mem x v }, s.live⟩ else none

/-- The live blocks of a chunk. -/
def liveIn (live : List HeapBlock) (c : Nat) : Nat := live.countP fun b => chunkOf cfg b.p = c

/-- The chunks that are linked from `p` are those of the list. -/
def FreeList (chunk : Nat → Chunk) : Nat → List Nat → Prop
  | p, [] => p = 0
  | p, c :: cs => p ≠ 0 ∧ p = c ∧ FreeList chunk (chunk c).next cs

/-- Two calls of `mmap` give arrays that do not overlap. -/
def Fresh : Prop := ∀ i j a b, i ≠ j → mmap i = some a → mmap j = some b →
  a + cfg.chunkSize * cfg.nc ≤ b ∨ b + cfg.chunkSize * cfg.nc ≤ a

/-- The chunk was handed out: it is one of an array, and of the last array it is one of the first
`numChunks`. -/
def Given (s : LogAllocator) (c : Nat) : Prop :=
  ∃ i < s.calls, ∃ a, mmap i = some a ∧ a % cfg.chunkSize = 0 ∧ ∃ j < cfg.nc,
    c = a + cfg.chunkSize * j ∧
    (a = s.chunks → j < s.numChunks)

variable {cfg mmap} {s s' : LogAllocator} {live : List HeapBlock} {b : HeapBlock}
    {c p sz : Nat} {x : Chunk}

@[simp] theorem setChunk_self : (s.setChunk c x).chunk c = x := Function.update_self ..

theorem setChunk_of_ne {c' : Nat} (h : c' ≠ c) : (s.setChunk c x).chunk c' = s.chunk c' :=
  Function.update_of_ne h ..

@[simp] theorem setChunk_cur : (s.setChunk c x).cur = s.cur := rfl

@[simp] theorem setChunk_mem : (s.setChunk c x).mem = s.mem := rfl

@[simp] theorem setChunk_freeChunks : (s.setChunk c x).freeChunks = s.freeChunks := rfl

@[simp] theorem fill_chunk {n : Nat} {v : Nat → UInt8} : (s.fill p n v).chunk = s.chunk := rfl

@[simp] theorem fill_cur {n : Nat} {v : Nat → UInt8} : (s.fill p n v).cur = s.cur := rfl

theorem fill_mem_of_not {n y : Nat} {v : Nat → UInt8} (h : ¬(p ≤ y ∧ y < p + n)) :
    (s.fill p n v).mem y = s.mem y := if_neg h

theorem chunkSize_pos (cfg : Cfg) : 0 < cfg.chunkSize := Nat.two_pow_pos _

theorem chunkSize_ge (cfg : Cfg) : 4096 ≤ cfg.chunkSize :=
  Nat.pow_le_pow_right (n := 2) (by decide) cfg.shift_ge

/-! ## The chunk of an address -/

theorem chunkOf_eq_mul (p : Nat) : chunkOf cfg p = p / cfg.chunkSize * cfg.chunkSize := by
  unfold chunkOf Cfg.chunkSize
  apply Nat.eq_of_testBit_eq
  intro i
  rw [Nat.testBit_ldiff, Nat.testBit_two_pow_sub_one, Nat.testBit_mul_two_pow,
    Nat.testBit_div_two_pow]
  by_cases hi : i < cfg.shift
  · simp [hi]
  · have hle : cfg.shift ≤ i := by omega
    simp [hi, hle]

/-- A mask finds the chunk, since chunks start at multiples of their size. -/
theorem chunkOf_eq (hc : c % cfg.chunkSize = 0) (hle : c ≤ p) (hlt : p < c + cfg.chunkSize) :
    chunkOf cfg p = c := by
  have hpos := chunkSize_pos cfg
  obtain ⟨k, rfl⟩ := Nat.dvd_of_mod_eq_zero hc
  rw [chunkOf_eq_mul, Nat.div_eq_of_lt_le (k := k) (by rwa [Nat.mul_comm])
    (by rw [Nat.succ_mul, Nat.mul_comm k]; exact hlt),
    Nat.mul_comm]

theorem Given.mod (h : Given cfg mmap s c) : c % cfg.chunkSize = 0 := by
  obtain ⟨-, -, a, -, ha, j, -, rfl, -⟩ := h
  rw [Nat.add_mul_mod_self_left, ha]

theorem FreeList.congr {chunk chunk' : Nat → Chunk} {l : List Nat} (h : FreeList chunk p l)
    (heq : ∀ c ∈ l, (chunk' c).next = (chunk c).next) : FreeList chunk' p l := by
  induction l generalizing p with
  | nil => exact h
  | cons c cs ih =>
    obtain ⟨hp, rfl, hrest⟩ := h
    refine ⟨hp, rfl, ?_⟩
    rw [heq p List.mem_cons_self]
    exact ih hrest fun c' hc' => heq c' (List.mem_cons_of_mem _ hc')

theorem FreeList.setChunk {l : List Nat} (h : FreeList s.chunk p l) (hnot : c ∉ l) :
    FreeList (s.setChunk c x).chunk p l := by
  refine h.congr fun c' hc' => ?_
  rw [setChunk_of_ne (ne_of_mem_of_not_mem hc' hnot)]

theorem setChunk_nb (hx : x.nb = (s.chunk c).nb) (c' : Nat) :
    ((s.setChunk c x).chunk c').nb = (s.chunk c').nb := by
  by_cases hc : c' = c
  · subst hc
    rw [setChunk_self, hx]
  · rw [setChunk_of_ne hc]

theorem mapArray_spec {attempts calls addr calls' : Nat}
    (h : mapArray cfg mmap attempts calls = some (addr, calls')) :
    addr % cfg.chunkSize = 0 ∧ calls < calls' ∧ ∃ i,
      calls ≤ i ∧ i < calls' ∧ mmap i = some addr := by
  induction attempts generalizing calls with
  | zero => cases h
  | succ attempts ih =>
    have hnext : mapArray cfg mmap attempts (calls + 1) = some (addr, calls') →
        addr % cfg.chunkSize = 0 ∧ calls < calls' ∧ ∃ i,
          calls ≤ i ∧ i < calls' ∧ mmap i = some addr := by
      intro hrest
      obtain ⟨hmod, hlt, i, hi, hi', hmap⟩ := ih hrest
      exact ⟨hmod, by omega, i, by omega, hi', hmap⟩
    unfold mapArray at h
    split at h
    · rename_i a ha
      split at h
      · rename_i hmod
        obtain ⟨rfl, rfl⟩ := Prod.mk.inj (Option.some.inj h)
        exact ⟨hmod, by omega, calls, le_rfl, by omega, ha⟩
      · exact hnext h
    · exact hnext h

/-! ## The invariant -/

/-- `cur` is the current chunk; there is none while `alloc_chunk` runs. A live block of no bytes,
which `realloc` can leave, may lie behind `next`. -/
structure Inv (cfg : Cfg) (mmap : Nat → Option Nat) (cur : Option Nat) (s : LogAllocator)
    (live : List HeapBlock) : Prop where
  apart : live.Pairwise Apart
  inside : ∀ b ∈ live, data (chunkOf cfg b.p) ≤ b.p ∧ b.p + b.sz < chunkOf cfg b.p + cfg.chunkSize
  given : ∀ b ∈ live, Given cfg mmap s (chunkOf cfg b.p)
  nb : ∀ c, (s.chunk c).nb = liveIn cfg live c + if cur = some c then 1 else 0
  free : ∃ l, FreeList s.chunk s.freeChunks l ∧ l.Nodup ∧ ∀ c ∈ l,
    Given cfg mmap s c ∧ liveIn cfg live c = 0 ∧ cur ≠ some c
  array : s.numChunks < cfg.nc → ∃ i < s.calls,
    mmap i = some s.chunks ∧ s.chunks % cfg.chunkSize = 0
  current : ∀ c, cur = some c → Given cfg mmap s c ∧
    (s.chunk c).max = data c + (cfg.chunkSize - sizeofChunk) ∧
    data c ≤ (s.chunk c).next ∧ (s.chunk c).next ≤ (s.chunk c).max ∧
    ∀ b ∈ live, chunkOf cfg b.p = c → 0 < b.sz → b.p + b.sz ≤ (s.chunk c).next

theorem liveIn_eq_zero : liveIn cfg live c = 0 ↔ ∀ b ∈ live, chunkOf cfg b.p ≠ c := by
  simp [liveIn, List.countP_eq_zero]

theorem liveIn_cons (b : HeapBlock) (live : List HeapBlock) (c : Nat) :
    liveIn cfg (b :: live) c = liveIn cfg live c + if chunkOf cfg b.p = c then 1 else 0 := by
  simp [liveIn, List.countP_cons]

/-- A chunk that was not handed out has no live block. -/
theorem Inv.liveIn_of_not_given {cur : Option Nat} (h : Inv cfg mmap cur s live)
    (hc : ¬Given cfg mmap s c) :
    liveIn cfg live c = 0 := by
  rw [liveIn_eq_zero]
  rintro b hb rfl
  exact hc (h.given b hb)

/-- A chunk of the array is not of another array. -/
theorem Fresh.array_eq (hfresh : Fresh cfg mmap) {i i' a a' j j' : Nat} (ha : mmap i = some a)
    (ha' : mmap i' = some a') (hj : j < cfg.nc) (hj' : j' < cfg.nc)
    (he : a + cfg.chunkSize * j = a' + cfg.chunkSize * j') : i = i' := by
  by_contra hne
  have hlt : ∀ k < cfg.nc, cfg.chunkSize * k < cfg.chunkSize * cfg.nc := fun k hk =>
    Nat.mul_lt_mul_of_pos_left hk (chunkSize_pos cfg)
  have := hlt j hj
  have := hlt j' hj'
  rcases hfresh i i' a a' hne ha ha' with h | h <;> omega

/-- What `alloc_chunk` takes was not in use, and nothing else changes hands. -/
theorem Inv.takeChunk (h : Inv cfg mmap none s live) (hfresh : Fresh cfg mmap)
    (ht : takeChunk cfg mmap s = some (s', c)) :
    s'.chunk = s.chunk ∧ s'.mem = s.mem ∧ liveIn cfg live c = 0 ∧ Given cfg mmap s' c ∧
      (∀ c', Given cfg mmap s c' → Given cfg mmap s' c') ∧
      (s'.numChunks < cfg.nc → ∃ i < s'.calls,
          mmap i = some s'.chunks ∧ s'.chunks % cfg.chunkSize = 0) ∧
      ∃ l, FreeList s'.chunk s'.freeChunks l ∧ l.Nodup ∧ ∀ c' ∈ l,
        Given cfg mmap s' c' ∧ liveIn cfg live c' = 0 ∧ c' ≠ c := by
  obtain ⟨l, hl, hnd, hfree⟩ := h.free
  unfold LogAllocator.takeChunk at ht
  split at ht
  · -- the first of the free list
    rename_i hne
    obtain ⟨rfl, rfl⟩ := Prod.mk.inj (Option.some.inj ht)
    cases l with
    | nil => exact absurd hl hne
    | cons c cs =>
      obtain ⟨-, rfl, hrest⟩ := hl
      obtain ⟨hgiven, hlive, -⟩ := hfree _ List.mem_cons_self
      obtain ⟨hnot, hnd'⟩ := List.nodup_cons.1 hnd
      refine ⟨rfl, rfl, hlive, hgiven, fun _ hg => hg, h.array, cs, hrest, hnd', fun c' hc' => ?_⟩
      obtain ⟨hg', hlive', -⟩ := hfree c' (List.mem_cons_of_mem _ hc')
      exact ⟨hg', hlive', fun he => hnot (he ▸ hc')⟩
  · rename_i hzero
    have hnil : l = [] := by
      cases l with
      | nil => rfl
      | cons c cs => exact absurd hl.1 hzero
    have hfree0 : s.freeChunks = 0 := not_not.1 hzero
    split at ht
    · -- the next of the array
      rename_i hlt
      obtain ⟨rfl, rfl⟩ := Prod.mk.inj (Option.some.inj ht)
      obtain ⟨i, hi, hmap, hmod⟩ := h.array hlt
      have hnew : ¬Given cfg mmap s (s.chunks + cfg.chunkSize * s.numChunks) := by
        rintro ⟨i', hi', a, ha, -, j, hj, he, hlast⟩
        obtain rfl := hfresh.array_eq hmap ha hlt hj he
        obtain rfl := Option.some.inj (hmap.symm.trans ha)
        have := hlast rfl
        have := Nat.eq_of_mul_eq_mul_left (chunkSize_pos cfg) (Nat.add_left_cancel he)
        omega
      refine ⟨rfl, rfl, h.liveIn_of_not_given hnew, ?_,
        ?_, fun _ => ⟨i, hi, hmap, hmod⟩, [], hfree0, List.nodup_nil, by simp⟩
      · exact ⟨i, hi, _, hmap, hmod, s.numChunks, hlt, rfl, fun _ => Nat.lt_succ_self _⟩
      · rintro c' ⟨i', hi', a, ha, hamod, j, hj, he, hlast⟩
        exact ⟨i', hi', a, ha, hamod, j, hj, he, fun hch => Nat.lt_succ_of_lt (hlast hch)⟩
    · -- the first of a new array
      obtain ⟨⟨addr, calls⟩, hmapped, he⟩ := Option.map_eq_some_iff.1 ht
      obtain ⟨rfl, rfl⟩ := Prod.mk.inj he
      obtain ⟨hmod, hcalls, i, hi, hi', hmap⟩ := mapArray_spec hmapped
      have hother : ∀ i' a j, i' < s.calls → mmap i' = some a →
        j < cfg.nc → addr + cfg.chunkSize * 0 ≠ a + cfg.chunkSize * j := by
        intro i' a j hi' ha hj heq
        have := hfresh.array_eq hmap ha cfg.nc_pos hj heq
        omega
      refine ⟨rfl, rfl, h.liveIn_of_not_given ?_, ?_,
        ?_, fun _ => ⟨i, hi', hmap, hmod⟩, [], hfree0, List.nodup_nil, by simp⟩
      · rintro ⟨i', hi'', a, ha, -, j, hj, heq, -⟩
        exact hother i' a j hi'' ha hj heq
      · exact ⟨i, hi', addr, hmap, hmod, 0, cfg.nc_pos, rfl, fun _ => Nat.one_pos⟩
      · rintro c' ⟨i', hi'', a, ha, hamod, j, hj, heq, -⟩
        refine ⟨i', lt_trans hi'' hcalls, a, ha, hamod, j, hj, heq, fun hch => ?_⟩
        exact absurd hch.symm (by simpa using hother i' a 0 hi'' ha cfg.nc_pos)

/-- A new current chunk, empty. -/
theorem Inv.allocChunk (h : Inv cfg mmap none s live) (hfresh : Fresh cfg mmap)
    (ha : allocChunk cfg mmap s = some (s', c)) :
    Inv cfg mmap (some c) s' live ∧ (s'.chunk c).next = data c ∧
      liveIn cfg live c = 0 ∧ s'.mem = s.mem := by
  obtain ⟨⟨t, c'⟩, ht, he⟩ := Option.map_eq_some_iff.1 ha
  obtain ⟨rfl, rfl⟩ := Prod.mk.inj he
  obtain ⟨hchunk, hmem, hlive, hgiven, hmono, harray, l, hl, hnd, hfree⟩ := h.takeChunk hfresh ht
  have hhead : (t.setChunk c' ⟨data c', data c' + (cfg.chunkSize - sizeofChunk), 1⟩).chunk c' =
      ⟨data c', data c' + (cfg.chunkSize - sizeofChunk), 1⟩ := setChunk_self
  have hnot : c' ∉ l := fun hm => (hfree _ hm).2.2 rfl
  refine ⟨⟨h.apart, h.inside, fun b hb => hmono _ (h.given b hb),
    fun c => ?_, ⟨l, hl.setChunk hnot, hnd, ?_⟩, harray, ?_⟩, ?_, hlive, hmem⟩
  · by_cases hc : c = c'
    · subst hc
      rw [hhead, hlive]
      simp
    · rw [setChunk_of_ne hc, hchunk, h.nb c, if_neg (by simp), if_neg (by simpa using Ne.symm hc)]
  · intro x hx
    obtain ⟨hg, hlx, hne⟩ := hfree x hx
    exact ⟨hg, hlx, by simpa using Ne.symm hne⟩
  · intro c hc
    obtain rfl := Option.some.inj hc
    rw [hhead]
    refine ⟨hgiven, rfl, le_rfl, Nat.le_add_right _ _, fun b hb hbc => ?_⟩
    exact absurd hbc (liveIn_eq_zero.1 hlive b hb)
  · rw [hhead]

/-- The constructor leaves no block. -/
theorem init_inv (hfresh : Fresh cfg mmap) (hi : init cfg mmap = some s) :
    Inv cfg mmap (some s.cur) s [] := by
  obtain ⟨⟨t, c⟩, ht, rfl⟩ := Option.map_eq_some_iff.1 hi
  have hempty : Inv cfg mmap none ⟨fun _ => ⟨0, 0, 0⟩,
    fun _ => 0, 0, cfg.chunkSize * cfg.nc, cfg.nc, 0, 0⟩ [] := by
    refine ⟨List.Pairwise.nil, by simp, by simp, fun c => by simp [liveIn],
      ⟨[], rfl, List.nodup_nil, by simp⟩, fun hlt => ?_, ?_⟩
    · exact absurd hlt (lt_irrefl _)
    · rintro c hc
      cases hc
  obtain ⟨⟨h1, h2, h3, h4, h5, h6, h7⟩, -⟩ := hempty.allocChunk hfresh ht
  exact ⟨h1, h2, h3, h4, h5, h6, h7⟩

/-- The current chunk is full and has no live block: it starts again. -/
theorem Inv.reset (h : Inv cfg mmap (some s.cur) s live) (hnb : (s.chunk s.cur).nb = 1) :
    liveIn cfg live s.cur = 0 ∧
      Inv cfg mmap (some s.cur) (s.setChunk s.cur ⟨data s.cur,
            (s.chunk s.cur).max, (s.chunk s.cur).nb⟩) live := by
  have hlive : liveIn cfg live s.cur = 0 := by
    have := h.nb s.cur
    rw [if_pos rfl] at this
    omega
  obtain ⟨hgiven, hmax, hlo, hhi, -⟩ := h.current _ rfl
  obtain ⟨l, hl, hnd, hfree⟩ := h.free
  have hnot : s.cur ∉ l := fun hm => (hfree _ hm).2.2 rfl
  refine ⟨hlive, h.apart, h.inside, h.given, fun c => ?_,
    ⟨l, hl.setChunk hnot, hnd, hfree⟩, h.array, ?_⟩
  · rw [setChunk_nb (by rfl)]
    exact h.nb c
  · intro c hc
    obtain rfl := Option.some.inj hc
    rw [setChunk_self]
    refine ⟨hgiven, hmax, le_rfl, hlo.trans hhi, fun b hb hbc => ?_⟩
    exact absurd hbc (liveIn_eq_zero.1 hlive b hb)

/-- The current chunk is full and has live blocks: it is let go. -/
theorem Inv.leave (h : Inv cfg mmap (some s.cur) s live) :
    Inv cfg mmap none (s.setChunk s.cur ⟨(s.chunk s.cur).next,
          (s.chunk s.cur).max, (s.chunk s.cur).nb - 1⟩) live := by
  obtain ⟨l, hl, hnd, hfree⟩ := h.free
  have hnot : s.cur ∉ l := fun hm => (hfree _ hm).2.2 rfl
  refine ⟨h.apart, h.inside, h.given, fun c => ?_, ⟨l, hl.setChunk hnot, hnd, ?_⟩, h.array, ?_⟩
  · by_cases hc : c = s.cur
    · subst hc
      rw [setChunk_self]
      dsimp only
      rw [h.nb, if_pos rfl, if_neg (by simp)]
      omega
    · rw [setChunk_of_ne hc, h.nb c,
        if_neg (show ¬some s.cur = some c from fun he => hc (Option.some.inj he).symm),
        if_neg (by simp)]
  · intro x hx
    exact ⟨(hfree x hx).1, (hfree x hx).2.1, by simp⟩
  · rintro c hc
    cases hc

theorem chunkOf_current (h : Inv cfg mmap (some s.cur) s live) (hlo : data s.cur ≤ p)
    (hhi : p < data s.cur + (cfg.chunkSize - sizeofChunk)) : chunkOf cfg p = s.cur := by
  have := chunkSize_ge cfg
  unfold data sizeofChunk at hhi
  unfold data at hlo
  exact chunkOf_eq (h.current _ rfl).1.mod (by omega) (by omega)

/-- A block with a byte in the current chunk is a block of that chunk. -/
theorem Inv.chunkOf_of_has (h : Inv cfg mmap (some s.cur) s live) (hb : b ∈ live) (hp : b.Has p)
    (hlo : data s.cur ≤ p) (hhi : p < data s.cur + (cfg.chunkSize - sizeofChunk)) :
    chunkOf cfg b.p = s.cur := by
  obtain ⟨hb1, hb2⟩ := h.inside b hb
  unfold HeapBlock.Has at hp
  unfold data at hb1
  rw [← chunkOf_eq (p := p) (h.given b hb).mod (by omega) (by omega)]
  exact chunkOf_current h hlo hhi

/-- A block is cut off. -/
theorem Inv.cut (h : Inv cfg mmap (some s.cur) s live) (hpos : 0 < sz)
    (hfit : (s.chunk s.cur).next + sz < (s.chunk s.cur).max) (v : Nat → UInt8) :
    Inv cfg mmap (some s.cur)
      ((s.setChunk s.cur ⟨(s.chunk s.cur).next + sz, (s.chunk s.cur).max,
            (s.chunk s.cur).nb + 1⟩).fill (s.chunk s.cur).next sz v)
      (⟨(s.chunk s.cur).next, sz⟩ :: live) := by
  obtain ⟨hgiven, hmax, hlo, hhi, hbelow⟩ := h.current _ rfl
  obtain ⟨l, hl, hnd, hfree⟩ := h.free
  have hof : chunkOf cfg (s.chunk s.cur).next = s.cur := chunkOf_current h hlo (by omega)
  have hsize := chunkSize_ge cfg
  have hnot : s.cur ∉ l := fun hm => (hfree _ hm).2.2 rfl
  refine ⟨List.pairwise_cons.2 ⟨fun b hb x hx hbx => ?_, h.apart⟩,
    ?_, ?_, fun c => ?_, ⟨l, hl.setChunk hnot, hnd, ?_⟩, h.array, ?_⟩
  · -- a byte of the new block is behind those of the others in the chunk
    obtain ⟨hx1, hx2⟩ := hx
    dsimp only at hx1 hx2
    have hbc := h.chunkOf_of_has hb hbx (hlo.trans hx1) (by omega)
    obtain ⟨hx3, hx4⟩ := hbx
    have := hbelow b hb hbc (by omega)
    omega
  · intro b hb
    rcases List.mem_cons.1 hb with rfl | hb
    · dsimp only
      rw [hof]
      unfold data sizeofChunk at hmax
      exact ⟨hlo, by omega⟩
    · exact h.inside b hb
  · intro b hb
    rcases List.mem_cons.1 hb with rfl | hb
    · dsimp only
      rw [hof]
      exact hgiven
    · exact h.given b hb
  · rw [liveIn_cons, hof, fill_chunk]
    by_cases hc : c = s.cur
    · subst hc
      rw [setChunk_self]
      dsimp only
      rw [h.nb, if_pos rfl, if_pos rfl]
      push_cast
      rfl
    · rw [setChunk_of_ne hc, h.nb c, if_neg (Ne.symm hc)]
      simp
  · intro x hx
    obtain ⟨hg, hlx, hne⟩ := hfree x hx
    refine ⟨hg, ?_, hne⟩
    rw [liveIn_cons, hof, hlx, if_neg fun he => hne (by rw [he])]
  · intro c hc
    obtain rfl := Option.some.inj hc
    rw [fill_chunk, setChunk_self]
    refine ⟨hgiven, hmax, by dsimp only; omega, hfit.le, fun b hb hbc hbpos => ?_⟩
    rcases List.mem_cons.1 hb with rfl | hb
    · exact le_rfl
    · have := hbelow b hb hbc hbpos
      dsimp only
      omega

theorem Inv.with_cur {cur : Option Nat} (h : Inv cfg mmap cur s live) (c : Nat) :
    Inv cfg mmap cur { s with cur := c } live :=
  ⟨h.apart, h.inside, h.given, h.nb, h.free, h.array, h.current⟩

theorem Inv.with_mem {cur : Option Nat} (h : Inv cfg mmap cur s live) (m : Nat → UInt8) :
    Inv cfg mmap cur { s with mem := m } live :=
  ⟨h.apart, h.inside, h.given, h.nb, h.free, h.array, h.current⟩

theorem Inv.with_fill (h : Inv cfg mmap (some s.cur) s live) (p n : Nat) (v : Nat → UInt8) :
    Inv cfg mmap (some (s.fill p n v).cur) (s.fill p n v) live :=
  h.with_mem _

/-- The new block lies at `next` of the current chunk, or it is the first of a chunk without a live
block. -/
theorem Inv.mallocLoop {fuel : Nat} (h : Inv cfg mmap (some s.cur) s live) (hfresh : Fresh cfg mmap)
    (hpos : 0 < sz) (hm : mallocLoop cfg mmap sz fuel s = some (s', p)) :
    Inv cfg mmap (some s'.cur) s' (⟨p, sz⟩ :: live) ∧
      (s'.cur = s.cur ∧ p = (s.chunk s.cur).next ∨ p = data s'.cur ∧ liveIn cfg live s'.cur = 0) ∧
      ∀ y, ¬(HeapBlock.mk p sz).Has y → s'.mem y = s.mem y := by
  induction fuel generalizing s with
  | zero => cases hm
  | succ fuel ih =>
    unfold LogAllocator.mallocLoop at hm
    dsimp only at hm
    split at hm
    · rename_i hfit
      obtain ⟨rfl, rfl⟩ := Prod.mk.inj (Option.some.inj hm)
      exact ⟨h.cut hpos hfit _, .inl ⟨rfl, rfl⟩, fun y hy => fill_mem_of_not hy⟩
    · split at hm
      · rename_i hnb
        obtain ⟨hlive, hreset⟩ := h.reset hnb
        obtain ⟨hinv, hwhere, hmem⟩ := ih hreset hm
        refine ⟨hinv, .inr ?_, hmem⟩
        rcases hwhere with ⟨hcur, hp⟩ | hfirst
        · rw [setChunk_cur] at hcur
          rw [setChunk_cur, setChunk_self] at hp
          rw [hcur]
          exact ⟨hp, hlive⟩
        · exact hfirst
      · obtain ⟨⟨t, c⟩, ht, hm⟩ := Option.bind_eq_some_iff.1 hm
        obtain ⟨hnew, hnext, hlive, htmem⟩ := h.leave.allocChunk hfresh ht
        obtain ⟨hinv, hwhere, hmem⟩ := ih (hnew.with_cur c) hm
        refine ⟨hinv, .inr ?_, fun y hy => (hmem y hy).trans (by rw [htmem]; rfl)⟩
        rcases hwhere with ⟨hcur, hp⟩ | hfirst
        · rw [hcur]
          exact ⟨hp.trans hnext, hlive⟩
        · exact hfirst

theorem Inv.malloc (h : Inv cfg mmap (some s.cur) s live) (hfresh : Fresh cfg mmap)
    (hm : s.malloc cfg mmap sz = some (s', p)) :
    Inv cfg mmap (some s'.cur) s' (⟨p, sz⟩ :: live) ∧
      (s'.cur = s.cur ∧ p = (s.chunk s.cur).next ∨ p = data s'.cur ∧ liveIn cfg live s'.cur = 0) ∧
      ∀ y, ¬(HeapBlock.mk p sz).Has y → s'.mem y = s.mem y := by
  unfold LogAllocator.malloc at hm
  split at hm
  · rename_i hsz
    exact h.mallocLoop hfresh hsz.1 hm
  · cases hm

/-! ## The loop of `malloc` -/

/-- An empty chunk in which the block has no place: the loop does not end. -/
theorem mallocLoop_full (hnb : (s.chunk s.cur).nb = 1) (hnext : (s.chunk s.cur).next = data s.cur)
    (hfull : ¬(s.chunk s.cur).next + sz < (s.chunk s.cur).max) (fuel : Nat) :
    mallocLoop cfg mmap sz fuel s = none := by
  induction fuel generalizing s with
  | zero => rfl
  | succ fuel ih =>
    unfold LogAllocator.mallocLoop
    dsimp only
    rw [if_neg hfull, if_pos hnb]
    refine ih ?_ ?_ ?_ <;> simp only [setChunk_cur, setChunk_self]
    · exact hnb
    · rwa [hnext] at hfull

/-- The second iteration is the last, or there is no last one. -/
theorem mallocLoop_empty (hnb : (s.chunk s.cur).nb = 1)
    (hnext : (s.chunk s.cur).next = data s.cur) (fuel : Nat) :
    mallocLoop cfg mmap sz (fuel + 1) s = mallocLoop cfg mmap sz 1 s := by
  by_cases hfit : (s.chunk s.cur).next + sz < (s.chunk s.cur).max
  · unfold LogAllocator.mallocLoop
    dsimp only
    rw [if_pos hfit, if_pos hfit]
  · rw [mallocLoop_full hnb hnext hfit, mallocLoop_full hnb hnext hfit]

theorem mallocLoop_fuel (fuel : Nat) :
    mallocLoop cfg mmap sz (fuel + 2) s = mallocLoop cfg mmap sz 2 s := by
  unfold LogAllocator.mallocLoop
  dsimp only
  split
  · rfl
  split
  · rename_i hnb
    exact mallocLoop_empty (by rw [setChunk_cur, setChunk_self]; exact hnb)
      (by rw [setChunk_cur, setChunk_self]) fuel
  · refine Option.bind_congr fun r hr => ?_
    obtain ⟨⟨t, c⟩, -, rfl⟩ := Option.map_eq_some_iff.1 hr
    exact mallocLoop_empty (by simp) (by simp) fuel

/-! ## Giving back and resizing -/

theorem Inv.perm {cur : Option Nat} {live' : List HeapBlock} (h : Inv cfg mmap cur s live)
    (hp : live.Perm live') :
    Inv cfg mmap cur s live' := by
  have hcount : ∀ c, liveIn cfg live' c = liveIn cfg live c := fun c => hp.symm.countP_eq _
  obtain ⟨l, hl, hnd, hfree⟩ := h.free
  refine ⟨?_, fun b hb => h.inside b (hp.mem_iff.2 hb),
    fun b hb => h.given b (hp.mem_iff.2 hb), fun c => ?_,
    ⟨l, hl, hnd, fun c hc => ?_⟩, h.array, fun c hc => ?_⟩
  · exact (hp.pairwise_iff fun {b b'} hb x hx hx' => hb x hx' hx).1 h.apart
  · rw [hcount]
    exact h.nb c
  · rw [hcount]
    exact hfree c hc
  · obtain ⟨h1, h2, h3, h4, h5⟩ := h.current c hc
    exact ⟨h1, h2, h3, h4, fun b hb => h5 b (hp.mem_iff.2 hb)⟩

/-- The other blocks of the chunk end before the last one. -/
theorem Inv.before_last (h : Inv cfg mmap (some s.cur) s (b :: live))
    (hlast : b.p + b.sz = (s.chunk s.cur).next) {b' : HeapBlock} (hb' : b' ∈ live)
    (hc : chunkOf cfg b'.p = s.cur) (hpos : 0 < b'.sz) : b'.p + b'.sz ≤ b.p := by
  have hapart := (List.pairwise_cons.1 h.apart).1 b' hb' (b'.p + b'.sz - 1)
  obtain ⟨-, -, -, -, hbelow⟩ := h.current _ rfl
  have hle := hbelow b' (List.mem_cons_of_mem _ hb') hc hpos
  unfold HeapBlock.Has at hapart
  omega

/-- The block is off the count of its chunk, and its bytes are free again if it was the last one. -/
theorem Inv.giveBack (h : Inv cfg mmap (some s.cur) s (b :: live)) :
    Inv cfg mmap (some s.cur) (s.giveBack (chunkOf cfg b.p) b.p b.sz) live ∧
      ∃ l, FreeList (s.giveBack (chunkOf cfg b.p) b.p b.sz).chunk s.freeChunks l ∧
        chunkOf cfg b.p ∉ l := by
  obtain ⟨l, hl, hnd, hfree⟩ := h.free
  have hnot : chunkOf cfg b.p ∉ l := by
    intro hm
    exact liveIn_eq_zero.1 (hfree _ hm).2.1 b List.mem_cons_self rfl
  have hl' : FreeList (s.giveBack (chunkOf cfg b.p) b.p b.sz).chunk s.freeChunks l :=
    hl.setChunk hnot
  refine ⟨⟨h.apart.of_cons, fun b' hb' => h.inside b' (List.mem_cons_of_mem _ hb'),
    fun b' hb' => h.given b' (List.mem_cons_of_mem _ hb'),
    fun c' => ?_, ⟨l, hl', hnd, fun c' hc' => ?_⟩, h.array, fun c' hc' => ?_⟩, l, hl', hnot⟩
  · have hnb := h.nb c'
    rw [liveIn_cons] at hnb
    unfold LogAllocator.giveBack
    dsimp only
    by_cases he : c' = chunkOf cfg b.p
    · subst he
      rw [setChunk_self]
      dsimp only
      rw [hnb, if_pos rfl]
      push_cast
      omega
    · rw [setChunk_of_ne he, hnb, if_neg (Ne.symm he)]
      simp
  · obtain ⟨hg, hlx, hne⟩ := hfree c' hc'
    rw [liveIn_cons] at hlx
    exact ⟨hg, by omega, hne⟩
  · obtain rfl := Option.some.inj hc'
    obtain ⟨hgiven, hmax, hlo, hhi, hbelow⟩ := h.current _ rfl
    unfold LogAllocator.giveBack
    dsimp only
    by_cases he : chunkOf cfg b.p = s.cur
    · obtain ⟨hb, -⟩ := h.inside b List.mem_cons_self
      rw [he] at hb ⊢
      rw [setChunk_self]
      dsimp only
      split
      · rename_i hlast
        refine ⟨hgiven, hmax, by omega, by omega, fun b' hb' hbc hpos => ?_⟩
        have := h.before_last hlast.2 hb' hbc hpos
        omega
      · exact ⟨hgiven, hmax, hlo, hhi, fun b' hb' => hbelow b' (List.mem_cons_of_mem _ hb')⟩
    · rw [setChunk_of_ne (Ne.symm he)]
      exact ⟨hgiven, hmax, hlo, hhi, fun b' hb' => hbelow b' (List.mem_cons_of_mem _ hb')⟩

theorem FreeList.unique {chunk : Nat → Chunk} {l l' : List Nat} (h : FreeList chunk p l)
    (h' : FreeList chunk p l') : l = l' := by
  induction l generalizing p l' with
  | nil =>
    cases l' with
    | nil => rfl
    | cons c cs => exact absurd h h'.1
  | cons c cs ih =>
    cases l' with
    | nil => exact absurd h' h.1
    | cons c' cs' =>
      obtain ⟨-, rfl, hrest⟩ := h
      obtain ⟨-, rfl, hrest'⟩ := h'
      rw [ih hrest hrest']

/-- A chunk without a live block joins the free list. -/
theorem Inv.freeChunk (h : Inv cfg mmap (some s.cur) s live) {l : List Nat}
    (hl : FreeList s.chunk s.freeChunks l) (hnot : c ∉ l) (hgiven : Given cfg mmap s c)
    (hne : c ≠ s.cur) (hnb : (s.chunk c).nb = 0) :
    Inv cfg mmap (some s.cur) (s.freeChunk c) live := by
  have hlive : liveIn cfg live c = 0 := by
    have := h.nb c
    rw [if_neg fun he => hne (Option.some.inj he).symm] at this
    omega
  obtain ⟨l', hl', hnd, hfree⟩ := h.free
  obtain rfl := hl.unique hl'
  have hself : (s.freeChunk c).chunk c = { s.chunk c with next := s.freeChunks } := setChunk_self
  have hother : ∀ c', c' ≠ c → (s.freeChunk c).chunk c' = s.chunk c' :=
    fun _ he => setChunk_of_ne he
  have hrest : FreeList (s.freeChunk c).chunk s.freeChunks l := hl.setChunk hnot
  refine ⟨h.apart, h.inside, h.given, fun c' => ?_, ?_, h.array, fun c' hc' => ?_⟩
  · rw [← h.nb]
    exact setChunk_nb (by rfl) c'
  · by_cases hzero : c = 0
    · exact ⟨[], hzero, List.nodup_nil, by simp⟩
    · refine ⟨c :: l, ⟨hzero, rfl, ?_⟩, List.nodup_cons.2 ⟨hnot, hnd⟩, fun c' hc' => ?_⟩
      · rw [hself]
        exact hrest
      · rcases List.mem_cons.1 hc' with rfl | hc'
        · exact ⟨hgiven, hlive, fun he => hne (Option.some.inj he).symm⟩
        · exact hfree c' hc'
  · obtain rfl := Option.some.inj hc'
    rw [hother _ (Ne.symm hne)]
    exact h.current _ rfl

/-- What is left when a block was freed; the chunk that it was in is not the current one if no block
is left in it. -/
theorem Inv.freed (h : Inv cfg mmap (some s.cur) s (b :: live))
    (hf : s.free cfg b.p b.sz = some s') :
    Inv cfg mmap (some s'.cur) s' live ∧ ∀ y, ¬b.Has y → s'.mem y = s.mem y := by
  unfold LogAllocator.free at hf
  split at hf
  · have hmem : ∀ y, ¬b.Has y → (s.fill b.p (b.sz / 4 * 4) magic).mem y = s.mem y := by
      intro y hy
      refine fill_mem_of_not ?_
      unfold HeapBlock.Has at hy
      omega
    obtain ⟨hinv, l, hl, hnot⟩ := (h.with_fill b.p (b.sz / 4 * 4) magic).giveBack
    dsimp only at hf
    split at hf
    · rename_i hnb
      split at hf
      · cases hf
      · rename_i hne
        obtain rfl := Option.some.inj hf
        exact ⟨hinv.freeChunk hl hnot (h.given b List.mem_cons_self) hne hnb, hmem⟩
    · obtain rfl := Option.some.inj hf
      exact ⟨hinv, hmem⟩
  · cases hf

theorem Inv.realloc {nsz : Nat} (h : Inv cfg mmap (some s.cur) s (b :: live))
    (hr : s.realloc cfg b.p b.sz nsz = (s', true)) :
    Inv cfg mmap (some s'.cur) s' (⟨b.p, nsz⟩ :: live) ∧ s'.mem = s.mem := by
  unfold LogAllocator.realloc at hr
  dsimp only at hr
  split at hr
  · rename_i hcond
    obtain ⟨hof, hlast, hfit⟩ := hcond
    obtain ⟨rfl, -⟩ := Prod.mk.inj hr
    obtain ⟨hgiven, hmax, hlo, hhi, hbelow⟩ := h.current _ rfl
    obtain ⟨l, hl, hnd, hfree⟩ := h.free
    obtain ⟨hb, hb'⟩ := h.inside b List.mem_cons_self
    rw [hof] at hb hb'
    have hsize := chunkSize_ge cfg
    have hnot : s.cur ∉ l := fun hm => (hfree _ hm).2.2 rfl
    refine ⟨⟨List.pairwise_cons.2 ⟨fun b' hm x hx hbx => ?_, h.apart.of_cons⟩, ?_, ?_, fun c => ?_,
      ⟨l, hl.setChunk hnot, hnd, fun c hc => ?_⟩, h.array, ?_⟩, rfl⟩
    · -- the other block ends before this one starts
      obtain ⟨hx1, hx2⟩ := hx
      dsimp only at hx1 hx2
      have hbc := h.chunkOf_of_has (List.mem_cons_of_mem _ hm) hbx (hb.trans hx1) (by omega)
      obtain ⟨hx3, hx4⟩ := hbx
      have := h.before_last hlast hm hbc (by omega)
      omega
    · intro b' hm
      rcases List.mem_cons.1 hm with rfl | hm
      · dsimp only
        rw [hof]
        unfold data sizeofChunk at hmax
        exact ⟨hb, by omega⟩
      · exact h.inside b' (List.mem_cons_of_mem _ hm)
    · intro b' hm
      rcases List.mem_cons.1 hm with rfl | hm
      · exact h.given b List.mem_cons_self
      · exact h.given b' (List.mem_cons_of_mem _ hm)
    · have hnb := h.nb c
      rw [liveIn_cons] at hnb ⊢
      rw [setChunk_nb (by rfl)]
      exact hnb
    · obtain ⟨hg, hlx, hne⟩ := hfree c hc
      rw [liveIn_cons] at hlx ⊢
      exact ⟨hg, hlx, hne⟩
    · intro c hc
      obtain rfl := Option.some.inj hc
      rw [setChunk_cur, setChunk_self]
      dsimp only
      refine ⟨hgiven, hmax, by omega, hfit.le, fun b' hm hbc hpos => ?_⟩
      rcases List.mem_cons.1 hm with rfl | hm
      · dsimp only
        omega
      · have := h.before_last hlast hm hbc hpos
        omega
  · cases (Prod.mk.inj hr).2

/-- The count of the current chunk does not run out. -/
theorem Inv.free_returns (h : Inv cfg mmap (some s.cur) s (b :: live)) (hpos : 0 < b.sz)
    (hp : b.p % 8 = 0) :
    ∃ s', s.free cfg b.p b.sz = some s' := by
  obtain ⟨hinv, -⟩ := (h.with_fill b.p (b.sz / 4 * 4) magic).giveBack
  have haligned : alignedSize b.sz ≠ 0 := by
    have := le_alignedSize b.sz
    omega
  unfold LogAllocator.free
  rw [if_pos ⟨haligned, hp⟩]
  dsimp only
  split
  · rename_i hnb
    have hne : chunkOf cfg b.p ≠ s.cur := by
      intro he
      have hcount := hinv.nb (chunkOf cfg b.p)
      rw [hnb, if_pos (by rw [he]; rfl)] at hcount
      omega
    exact ⟨_, if_neg hne⟩
  · exact ⟨_, rfl⟩

/-! ## Any calls on live blocks -/

theorem Inv.step {s s' : Heap} {op : Op} (h : Inv cfg mmap (some s.a.cur) s.a s.live)
    (hfresh : Fresh cfg mmap) (hs : step cfg mmap s op = some s') :
    Inv cfg mmap (some s'.a.cur) s'.a s'.live := by
  cases op with
  | malloc sz =>
    obtain ⟨⟨a, p⟩, ha, rfl⟩ := Option.map_eq_some_iff.1 hs
    exact (h.malloc hfresh ha).1
  | free b =>
    unfold LogAllocator.step at hs
    dsimp only at hs
    split at hs
    · rename_i hb
      obtain ⟨a, ha, rfl⟩ := Option.map_eq_some_iff.1 hs
      exact ((h.perm (List.perm_cons_erase hb)).freed ha).1
    · cases hs
  | realloc b nsz =>
    unfold LogAllocator.step at hs
    dsimp only at hs
    split at hs
    · rename_i hb
      obtain rfl := Option.some.inj hs
      cases hr : (s.a.realloc cfg b.p b.sz nsz).2 with
      | true => exact ((h.perm (List.perm_cons_erase hb)).realloc (Prod.ext rfl hr)).1
      | false =>
        have hsame : (s.a.realloc cfg b.p b.sz nsz).1 = s.a := by
          unfold LogAllocator.realloc at hr ⊢
          dsimp only at hr ⊢
          split at hr
          · cases hr
          · rename_i hcond
            rw [if_neg hcond]
        rw [hsame]
        exact h
    · cases hs
  | write x v =>
    unfold LogAllocator.step at hs
    dsimp only at hs
    split at hs
    · obtain rfl := Option.some.inj hs
      exact h.with_mem _
    · cases hs

/-- **Blocks do not overlap.** After any calls on live blocks these share no byte and lie in their
chunks; a chunk counts its live blocks, and one more while it is the current one; the free chunks
have no live block. The calls that may come next: `malloc` goes on in the current chunk, or starts
in one without a live block; `free` of an aligned block returns; a `realloc` that succeeds leaves
every byte as it is, and the block of the new size is apart from the others, which stay where they
are; no call changes a byte of another block. -/
theorem blocks_apart (hfresh : Fresh cfg mmap) {a₀ : LogAllocator} (hinit : init cfg mmap = some a₀)
    {ops : List Op} {s : Heap} (hrun : Run.run (step cfg mmap) ⟨a₀, []⟩ ops = some s) :
    s.live.Pairwise Apart ∧
      (∀ b ∈ s.live, data (chunkOf cfg b.p) ≤ b.p ∧ b.p + b.sz < chunkOf cfg b.p + cfg.chunkSize) ∧
      (∀ c, (s.a.chunk c).nb = liveIn cfg s.live c + if s.a.cur = c then 1 else 0) ∧
      (∃ l, FreeList s.a.chunk s.a.freeChunks l ∧ ∀ c ∈ l,
          s.a.cur ≠ c ∧ ∀ b ∈ s.live, chunkOf cfg b.p ≠ c) ∧
      (∀ sz a p, s.a.malloc cfg mmap sz = some (a, p) →
        (a.cur = s.a.cur ∧ p = (s.a.chunk s.a.cur).next ∨ p = data a.cur ∧ ∀ b ∈ s.live,
          chunkOf cfg b.p ≠ a.cur) ∧
        ∀ b ∈ s.live, ∀ x, b.Has x → a.mem x = s.a.mem x) ∧
      (∀ b ∈ s.live, (0 < b.sz → b.p % 8 = 0 → ∃ a, s.a.free cfg b.p b.sz = some a) ∧
        ∀ a, s.a.free cfg b.p b.sz = some a → ∀ b' ∈ s.live.erase b,
          ∀ x, b'.Has x → a.mem x = s.a.mem x) ∧
      ∀ b ∈ s.live, ∀ nsz a, s.a.realloc cfg b.p b.sz nsz = (a, true) →
        (∀ x, a.mem x = s.a.mem x) ∧
          ((⟨b.p, nsz⟩ :: s.live.erase b : List HeapBlock)).Pairwise Apart := by
  have h : Inv cfg mmap (some s.a.cur) s.a s.live :=
    Run.invariant_of_step (fun _ _ _ ht hstep => Inv.step ht hfresh hstep)
      (init_inv hfresh hinit) hrun
  refine ⟨h.apart, h.inside, fun c => ?_,
    ?_, fun sz a p hm => ?_, fun b hb => ⟨fun hpos hp => ?_, fun a ha b' hb' x hx => ?_⟩,
    fun b hb nsz a hr => ?_⟩
  · rw [h.nb c]
    simp
  · obtain ⟨l, hl, -, hfree⟩ := h.free
    refine ⟨l, hl, fun c hc =>
      ⟨fun he => (hfree c hc).2.2 (by rw [he]), liveIn_eq_zero.1 (hfree c hc).2.1⟩⟩
  · obtain ⟨hinv, hwhere, hmem⟩ := h.malloc hfresh hm
    refine ⟨hwhere.imp id fun hw => ⟨hw.1, liveIn_eq_zero.1 hw.2⟩,
      fun b hb x hx => hmem x fun hnew => ?_⟩
    exact (List.pairwise_cons.1 hinv.apart).1 b hb x hnew hx
  · exact (h.perm (List.perm_cons_erase hb)).free_returns hpos hp
  · have hperm := h.perm (List.perm_cons_erase hb)
    refine (hperm.freed ha).2 x fun hbx => ?_
    exact (List.pairwise_cons.1 hperm.apart).1 b' hb' x hbx hx
  · obtain ⟨hinv, hmem⟩ := (h.perm (List.perm_cons_erase hb)).realloc hr
    exact ⟨fun x => by rw [hmem], hinv.apart⟩

/-- The allocator of messages. -/
def messages : Cfg := ⟨16, 8, by decide, by decide⟩

/-- Arrays one behind the other. -/
def upward (k : Nat) : Option Nat := some (524288 * (k + 1))

theorem upward_fresh : Fresh messages upward := by
  intro i j a b hne ha hb
  obtain rfl := Option.some.inj ha
  obtain rfl := Option.some.inj hb
  have hlen : messages.chunkSize * messages.nc = 524288 := by decide
  rw [hlen]
  omega

def twoBlocks : List Op := [.malloc 16, .malloc 24, .write 524320 7]

theorem blocks_apart_twoBlocks : ∃ a₀ s, init messages upward = some a₀ ∧
    Run.run (step messages upward) ⟨a₀, []⟩ twoBlocks = some s ∧
    s.live = [⟨524328, 24⟩, ⟨524312, 16⟩] ∧ s.live.Pairwise Apart := by
  obtain ⟨a₀, ha₀⟩ : ∃ a₀, init messages upward = some a₀ := ⟨_, rfl⟩
  obtain ⟨s, hs, hlive⟩ : ∃ s, Run.run (step messages upward) ⟨a₀, []⟩ twoBlocks = some s ∧
      s.live = [⟨524328, 24⟩, ⟨524312, 16⟩] := by
    obtain rfl := Option.some.inj ha₀
    exact ⟨_, rfl, rfl⟩
  exact ⟨a₀, s, ha₀, hs, hlive, (blocks_apart upward_fresh ha₀ hs).1⟩

end LogAllocator

end TinyBFT
