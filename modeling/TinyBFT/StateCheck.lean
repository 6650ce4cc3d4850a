import TinyBFT.Partition
import TinyBFT.Lib.Run

/-!
# Checking the state (`State.cc:1664-1735`)

A replica that recovers compares its blocks with the digests of the partition tree. The partitions
that it has to check are in a queue, and `lchecked` says how far it is with the first one. It lets
the messages through from time to time and then goes on.

| here | there |
| --- | --- |
| `CPart`, `CheckState` | `State.h:208-218`; `lm`, `same` are those of the blocks |
| `first`, `last`  | `min`, `max` |
| `scan`           | the inner loop; `none` is `th_fail`, and `stop i` that it is interrupted before block `i` |
| `checkSlot`      | the body of the outer loop of `check_state` |
| `arrive`         | what messages and batches do in between: blocks are written, and partitions join the queue |
| `staticTable`    | the constants of the static tree (`Partition.h:20-36`) |

`settled` and `turned` are not in the code: the blocks that were compared with their digest or
fetched since the start of the check, and whether `check_state` has not looked at the first
partition of the queue yet. A call of `check_state` is some `checkSlot`s, until the queue is empty
or one is interrupted.

`lchecked` is not reset when a partition leaves the queue: if it lies within the next one, the
blocks before it are not looked at. And `blocks` adds the levels that the tree does not have to an
index of `PBlocks`, whose first entry is that of the root.
-/

namespace TinyBFT

structure CPart where
  level : Nat
  index : Nat
deriving DecidableEq, Repr

structure CheckState where
  toCheck : List CPart
  lchecked : Int
  checkStart : Int
  lm : Int → Int
  same : Int → Bool
  settled : Int → Bool
  turned : Bool

inductive CheckOp
  | slot (stop : Int → Bool)
  | arrive (lm : Int → Int) (same : Int → Bool) (new : List CPart)

namespace CheckState

variable (t : PartTable) (nb : Nat)

def first (cp : CPart) : Int := cp.index * t.blocks cp.level

def last (cp : CPart) : Int :=
  let max := first t cp + t.blocks cp.level
  if nb < max then nb else max

/-- Where the check of a partition goes on. -/
def cursor (cp : CPart) (s : CheckState) : Int :=
  if s.lchecked < first t cp ∨ last t nb cp ≤ s.lchecked then first t cp else s.lchecked

/-- Whether the end of the range is reached. -/
def scan (stop : Int → Bool) (max : Int) : Nat → CheckState → Option (CheckState × Bool)
  | 0, s => some (s, true)
  | fuel + 1, s =>
    if s.lchecked < max then
      if stop s.lchecked then some (s, false)
      else if s.checkStart < s.lm s.lchecked ∨ s.same s.lchecked then
        scan stop max fuel { s with lchecked := s.lchecked + 1,
                                    settled := Function.update s.settled s.lchecked true }
      else none
    else some (s, true)

/-- `slot(0) = high(); remove()`. -/
def removeSlot (rest : List CPart) : List CPart :=
  match rest.getLast? with
  | none => []
  | some cp => cp :: rest.dropLast

def checkSlot (stop : Int → Bool) (s : CheckState) : Option CheckState :=
  match s.toCheck with
  | [] => some s
  | cp :: rest => do
    let c := s.cursor t nb cp
    let (s, done) ← scan stop (last t nb cp) (last t nb cp - c).toNat
      { s with lchecked := c, turned := false }
    some (if done then { s with toCheck := removeSlot rest, turned := true } else s)

def step (s : CheckState) : CheckOp → Option CheckState
  | .slot stop => checkSlot t nb stop s
  | .arrive lm same new =>
    some { s with lm, same, toCheck := s.toCheck ++ new,
                  settled := fun i => s.settled i || decide (s.checkStart < lm i) }

/-- `start_check`; the queue is as it was. -/
def start (toCheck : List CPart) (lc : Int) (lm : Int → Int) (same : Int → Bool) : CheckState :=
  ⟨toCheck, -1, lc, lm, same, fun i => decide (lc < lm i), true⟩

/-! ## The blocks below a partition -/

/-- The ancestor of a block so many levels above it. -/
def ancestor (j : Int) : Nat → Int
  | 0 => j
  | k + 1 => (ancestor j k).tdiv (t.psize (t.levels - 1 - k))

def Below (cp : CPart) (j : Int) : Prop :=
  0 ≤ j ∧ j < nb ∧ ancestor t j (t.levels - 1 - cp.level) = cp.index

instance (cp : CPart) (j : Int) : Decidable (Below t nb cp j) := inferInstanceAs (Decidable (_ ∧ _))

/-- When `check_state` turns to a partition, the blocks below it that are not settled yet lie
between where it starts and the end of the range. -/
def Ready (s : CheckState) : CheckOp → Prop
  | .slot _ => s.turned = true → ∀ cp ∈ s.toCheck.head?,
      ∀ j, Below t nb cp j → s.settled j = false → s.cursor t nb cp ≤ j ∧ j < last t nb cp
  | .arrive _ _ _ => True

/-! ## Steps -/

/-- How far the check of the first partition is, once it has been looked at. -/
def Underway (s : CheckState) : Prop :=
  s.turned = false → ∃ cp, s.toCheck.head? = some cp ∧
    first t cp ≤ s.lchecked ∧ s.lchecked < last t nb cp ∧
    ∀ j, Below t nb cp j → s.settled j = false → s.lchecked ≤ j ∧ j < last t nb cp

variable {t} {nb} {stop : Int → Bool}

/-- What the inner loop leaves behind. -/
structure Scanned (max : Int) (s u : CheckState) (done : Bool) : Prop where
  toCheck : u.toCheck = s.toCheck
  turned : u.turned = s.turned
  ge : s.lchecked ≤ u.lchecked
  settled : ∀ j, u.settled j = false → s.settled j = false ∧ ¬(s.lchecked ≤ j ∧ j < u.lchecked)
  stop : done = false → u.lchecked < max
  finish : done = true → max ≤ u.lchecked

theorem scan_spec {max : Int} :
    ∀ {fuel : Nat} {s u : CheckState} {done : Bool}, (max - s.lchecked).toNat ≤ fuel →
    scan stop max fuel s = some (u, done) → Scanned max s u done
  | 0, s, u, done, hf, h => by
    cases h
    exact ⟨rfl, rfl, le_rfl, fun j hj => ⟨hj, by omega⟩, nofun, fun _ => by omega⟩
  | fuel + 1, s, u, done, hf, h => by
    rw [scan] at h
    split at h
    · rename_i hlt
      split at h
      · cases h
        exact ⟨rfl, rfl, le_rfl, fun j hj => ⟨hj, by omega⟩, fun _ => hlt, nofun⟩
      · split at h
        · have ih :=
            scan_spec (s := { s with lchecked := s.lchecked + 1,
                                     settled := Function.update s.settled s.lchecked true })
            (by dsimp only; omega) h
          have hge : s.lchecked + 1 ≤ u.lchecked := ih.ge
          refine ⟨ih.toCheck, ih.turned, by omega, fun j hj => ?_, ih.stop, ih.finish⟩
          obtain ⟨h1, h2⟩ := ih.settled j hj
          dsimp only at h1 h2
          by_cases hj' : j = s.lchecked
          · rw [hj', Function.update_self] at h1
            cases h1
          · rw [Function.update_of_ne hj'] at h1
            exact ⟨h1, by omega⟩
        · cases h
    · cases h
      exact ⟨rfl, rfl, le_rfl, fun j hj => ⟨hj, by omega⟩, nofun, fun _ => by omega⟩

/-- Wherever `check_state` goes on, the blocks that it still has to look at are before it. -/
theorem remaining {s : CheckState} {cp : CPart} (hu : Underway t nb s)
    (hr : Ready t nb s (.slot stop)) (hcp : s.toCheck.head? = some cp) :
    ∀ j, Below t nb cp j → s.settled j = false → s.cursor t nb cp ≤ j ∧ j < last t nb cp := by
  cases ht : s.turned with
  | true => exact hr ht cp hcp
  | false =>
    obtain ⟨cp', hcp', h1, h2, h3⟩ := hu ht
    rw [hcp, Option.some.injEq] at hcp'
    subst hcp'
    have hc : s.cursor t nb cp = s.lchecked := if_neg (by omega)
    rw [hc]
    exact h3

theorem cursor_ge (cp : CPart) (s : CheckState) : first t cp ≤ s.cursor t nb cp := by
  unfold cursor
  split
  · exact le_rfl
  · omega

/-- One round: the check of the first partition stays underway, or all blocks below it are settled
and it leaves the queue. -/
theorem checkSlot_spec {s u : CheckState} (hu : Underway t nb s) (hr : Ready t nb s (.slot stop))
    (h : checkSlot t nb stop s = some u) :
    Underway t nb u ∧ (u.toCheck.length < s.toCheck.length → ∀ cp ∈ s.toCheck.head?,
        ∀ j, Below t nb cp j → u.settled j = true) := by
  cases hq : s.toCheck with
  | nil =>
    rw [checkSlot, hq] at h
    cases h
    exact ⟨hu, fun _ => nofun⟩
  | cons cp rest =>
    have hrem := remaining hu hr (show s.toCheck.head? = some cp by rw [hq]; rfl)
    simp only [checkSlot, hq] at h
    obtain ⟨⟨v, done⟩, hv, h⟩ := Option.bind_eq_some_iff.1 h
    have hs := scan_spec (s := ⟨cp :: rest, s.cursor t nb cp,
      s.checkStart, s.lm, s.same, s.settled, false⟩) le_rfl hv
    have hleft : ∀ j, Below t nb cp j → v.settled j = false →
      v.lchecked ≤ j ∧ j < last t nb cp := by
      intro j hj hset
      obtain ⟨h1, h2⟩ := hs.settled j hset
      have h3 := hrem j hj h1
      dsimp only at h2
      omega
    cases done with
    | true =>
      cases h
      refine ⟨nofun, fun _ cp' hcp' j hj => ?_⟩
      simp only [List.head?_cons, Option.mem_def, Option.some.injEq] at hcp'
      subst hcp'
      by_contra hset
      have := hleft j hj (by simpa using hset)
      have := hs.finish rfl
      omega
    | false =>
      obtain rfl : v = u := Option.some.inj h
      have htc : v.toCheck = cp :: rest := hs.toCheck
      refine ⟨fun _ => ⟨cp, by rw [htc]; rfl, (cursor_ge cp s).trans hs.ge,
        hs.stop rfl, hleft⟩, fun hlt => ?_⟩
      rw [htc] at hlt
      exact absurd hlt (lt_irrefl _)

theorem step_spec {s u : CheckState} {op : CheckOp} (hu : Underway t nb s) (hr : Ready t nb s op)
    (h : step t nb s op = some u) :
    Underway t nb u ∧ (u.toCheck.length < s.toCheck.length → ∀ cp ∈ s.toCheck.head?,
        ∀ j, Below t nb cp j → u.settled j = true) := by
  cases op with
  | slot stop => exact checkSlot_spec hu hr h
  | arrive lm same new =>
    cases h
    refine ⟨fun ht => ?_, fun hlt => absurd hlt (by simp)⟩
    obtain ⟨cp, hcp, h1, h2, h3⟩ := hu ht
    refine ⟨cp, ?_, h1, h2, fun j hj hset => h3 j hj ?_⟩
    · rw [List.head?_append, hcp]
      rfl
    · dsimp only at hset
      rw [Bool.or_eq_false_iff] at hset
      exact hset.1

/-! ## Runs -/

/-- **What leaves the queue has been checked**, whatever the queue has and however the check is
interrupted, in every run in which `check_state` is `Ready` for the partitions that it turns to. -/
theorem checked_below {toCheck : List CPart} {lc : Int} {lm : Int → Int} {same : Int → Bool}
    {pre post : List CheckOp} {op : CheckOp}
    (hm : Run.Meets (step t nb) (Ready t nb) (start toCheck lc lm same) (pre ++ op :: post))
    {s u : CheckState} (hs : Run.run (step t nb) (start toCheck lc lm same) pre = some s)
    (hop : step t nb s op = some u) (hlt : u.toCheck.length < s.toCheck.length) :
    ∀ cp ∈ s.toCheck.head?, ∀ j, Below t nb cp j → u.settled j = true := by
  obtain ⟨h1, h2⟩ := Run.meets_append hm hs
  have hu : Underway t nb s := Run.invariant (fun _ _ _ hi hr h => (step_spec hi hr h).1)
    (show Underway t nb (start toCheck lc lm same) from nofun) h1 hs
  exact (step_spec hu h2.1 hop).2 hlt

/-! ## The ranges of the two trees -/

/-- The tree of the static build. -/
def staticTable : PartTable where
  levels := 4
  psize l := if l = 0 then 1 else if l < 4 then 256 else 0
  plevelSize l := if l < 4 then 256 ^ l else 0
  pblocks l := if l < 4 then 256 ^ (3 - l) else 0

theorem ancestor_static {j : Int} (hj : 0 ≤ j) : ∀ k ≤ 3, ancestor staticTable j k = j / 256 ^ k
  | 0, _ => by simp [ancestor]
  | k + 1, hk => by
    have hsize : staticTable.psize (staticTable.levels - 1 - k) = 256 := by
      simp only [staticTable]
      rw [if_neg (by omega), if_pos (by omega)]
    have h0 : 0 ≤ j / 256 ^ k := Int.ediv_nonneg hj (by positivity)
    rw [ancestor, ancestor_static hj k (by omega), hsize,
      Int.tdiv_eq_ediv_of_nonneg h0, Int.ediv_ediv_of_nonneg (by positivity), pow_succ]

theorem blocks_static {l : Nat} (hl : l < 4) : staticTable.blocks l = 256 ^ (3 - l) := by
  show (if l < 4 then (256 : Int) ^ (3 - l) else 0) = _
  exact if_pos hl

/-- In the static tree, the blocks below a partition are those of its range. -/
theorem static_range {cp : CPart} (hl : cp.level < 4) {j : Int} (h : Below staticTable nb cp j) :
    first staticTable cp ≤ j ∧ j < last staticTable nb cp := by
  obtain ⟨h0, hnb, h⟩ := h
  have hpos : (0 : Int) < 256 ^ (3 - cp.level) := by positivity
  rw [show staticTable.levels - 1 - cp.level = 3 - cp.level from rfl,
    ancestor_static h0 _ (by omega)] at h
  have h1 := Int.ediv_mul_le j hpos.ne'
  have h2 := Int.lt_ediv_add_one_mul_self j hpos
  rw [h] at h1 h2
  rw [add_mul, one_mul] at h2
  unfold last first
  rw [blocks_static hl]
  refine ⟨h1, ?_⟩
  dsimp only
  split
  · exact hnb
  · exact h2

/-- A memory of two blocks in the dynamic tree, and block 0 in the queue: it leaves the queue, and
was not looked at. In the static tree, the partition of the blocks 0, ..., 7 comes after block 5:
the blocks before that are not looked at. -/
theorem unchecked_removed :
    (∃ t s, PartTable.init Params.default 4096 (2 * 4096) = some t ∧
      Run.run (step t 2) (start [⟨1, 0⟩] 0 (fun _ => 0)
        fun _ => true) [.slot fun _ => false] = some s ∧
      s.toCheck = [] ∧ Below t 2 ⟨1, 0⟩ 0 ∧ s.settled 0 = false) ∧
    ∃ s, Run.run (step staticTable 8) (start [⟨3, 5⟩, ⟨2, 0⟩] 0 (fun _ => 0)
        fun _ => true) [.slot fun _ => false, .slot fun _ => false] = some s ∧
      s.toCheck = [] ∧ Below staticTable 8 ⟨2, 0⟩ 0 ∧ s.settled 0 = false := by
  constructor
  · obtain ⟨t, ht, h⟩ :=
      (Option.any_eq_true _ _).1 (show (PartTable.init Params.default 4096 (2 * 4096)).any (fun t =>
      decide (Below t 2 ⟨1, 0⟩ 0) && (Run.run (step t 2) (start [⟨1, 0⟩] 0 (fun _ => 0)
        fun _ => true) [.slot fun _ => false]).any fun s =>
        decide (s.toCheck = [] ∧ s.settled 0 = false)) = true by decide +kernel)
    obtain ⟨h1, h2⟩ := Bool.and_eq_true_iff.1 h
    obtain ⟨s, hs, h⟩ := (Option.any_eq_true _ _).1 h2
    obtain ⟨h3, h4⟩ := of_decide_eq_true h
    exact ⟨t, s, ht, hs, h3, of_decide_eq_true h1, h4⟩
  · obtain ⟨s, hs, h⟩ := (Option.any_eq_true _ _).1
      (show (Run.run (step staticTable 8) (start [⟨3, 5⟩, ⟨2, 0⟩] 0 (fun _ => 0) fun _ => true)
      [.slot fun _ => false, .slot fun _ => false]).any
        (fun s => decide (s.toCheck = [] ∧ s.settled 0 = false)) = true by decide +kernel)
    obtain ⟨h3, h4⟩ := of_decide_eq_true h
    exact ⟨s, hs, h3, by decide, h4⟩

/-- One partition of the static tree, with an interruption before block 3. -/
theorem checked_below_eight :
    ∃ s, Run.run (step staticTable 8) (start [⟨2, 0⟩] 0 (fun _ => 0) fun _ => true)
    [.slot fun i => decide (i = 3), .slot fun _ => false] = some s ∧ ∀ j,
      Below staticTable 8 ⟨2, 0⟩ j → s.settled j = true := by
  obtain ⟨v, hv, hvlen⟩ := (Option.any_eq_true _ _).1
    (show (Run.run (step staticTable 8) (start [⟨2, 0⟩] 0 (fun _ => 0) fun _ => true)
    [.slot fun i => decide (i = 3)]).any (fun v => decide (v.toCheck = [⟨2, 0⟩] ∧ v.turned = false ∧
      (step staticTable 8 v (.slot fun _ => false)).any (fun s => decide (s.toCheck = [])))) =
        true by decide +kernel)
  obtain ⟨hq, ht, hnext⟩ := of_decide_eq_true hvlen
  obtain ⟨s, hs, hempty⟩ := (Option.any_eq_true _ _).1 hnext
  have hempty : s.toCheck = [] := of_decide_eq_true hempty
  have hready : Run.Meets (step staticTable 8) (Ready staticTable 8)
    (start [⟨2, 0⟩] 0 (fun _ => 0) fun _ => true)
      ([.slot fun i => decide (i = 3)] ++ .slot (fun _ => false) :: []) := by
    refine ⟨fun _ cp hcp j hj _ => ?_, fun v' hv' => ⟨fun ht' => ?_, fun _ _ => trivial⟩⟩
    · rw [Option.mem_def, show (start [(⟨2, 0⟩ : CPart)] 0 (fun _ => 0)
        fun _ => true).toCheck.head? = some ⟨2, 0⟩ from rfl, Option.some.injEq] at hcp
      subst hcp
      exact static_range (by decide) hj
    · obtain rfl : v' = v := by
        obtain ⟨w, hw, hv⟩ := Run.run_cons.1 hv
        cases hv
        exact Option.some.inj (hv'.symm.trans hw)
      rw [ht] at ht'
      cases ht'
  refine ⟨s, Run.run_append.2 ⟨v, hv, Run.run_cons.2 ⟨s, hs, rfl⟩⟩, ?_⟩
  exact checked_below hready hv hs (by rw [hempty, hq]; decide) ⟨2, 0⟩ (by rw [hq]; rfl)

end CheckState

end TinyBFT
