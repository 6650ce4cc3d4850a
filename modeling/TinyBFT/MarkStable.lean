import TinyBFT.Numbering

/-!
# `mark_stable` (`Replica.cc:1563-1673`)

A call of `mark_stable` may call itself, with a checkpoint that it moves from `sset` to `elog`, and
it may be entered again through `vi.mark_stable`, which may ask for `process_new_view`. The calls of
itself each take a checkpoint out of `sset`; and a new view is complete while it is processed, so
that no other one is asked for from inside. So the recursion ends.

| here | there |
| --- | --- |
| `markStableOr`     | `mark_stable`; in place of the calls of itself that are more than `fuel` deep stands `more` |
| `processNewViewOr` | `process_new_view`; `ms` stands for `mark_stable` |
| `handleCallOr`     | the calls of the `NV_info`s; in place of those that are more than `depth` deep stands `deeper` |

What stands beyond the bounds is any program at all. That the result does not depend on it says that
the bounds are not reached.
-/

namespace TinyBFT

namespace Replica

open Prog (Ensures Reaches Within Always Agrees get modify assert ofOption when each)
open ViewInfo (pnvOuts)

section Bounded

variable (cfg : Cfg) (id : Nat)

def markStableOr (h : NVCall → Prog Replica Unit) (more : Int → Bool → Prog Replica Unit) :
    Nat → Int → Bool → Prog Replica Unit
  | 0, n, haveState => more n haveState
  | fuel + 1, n, haveState => do
    let s ← get
    when (decide (s.lastStable < n)) do
      advance cfg id h n haveState
      let s ← get
      when haveState (ownStable cfg id s.lastStable)
      let s ← get
      let newLs ← moveCkpts cfg id (List.range cfg.n) s.lastStable
      let s ← get
      when (decide (s.lastStable < newLs)) do
        let have' ← haveCkpt cfg newLs
        markStableOr h more fuel newLs have'
      let s ← get
      when (s.isPrimary cfg id) (sendPrePrepare cfg id)

def processNewViewOr (h : NVCall → Prog Replica Unit) (markStable : Int → Bool → Prog Replica Unit)
    (min max ms : Int) : Prog Replica Unit := do
  assert (decide (0 ≤ ms ∧ ms ≤ min))
  let s ← get
  when (s.isPrimary cfg id) do
    modify fun s => { s with newViews := (s.lastStable, max) :: s.newViews }
    let nv ← ofOption (s.vi.lastNvs id).nv
    emit none (.newView nv)
  let min := if min < s.lastStable then s.lastStable else min
  modify fun s => { s with limbo := false, seqno := max - 1, lowBound := min }
  when (decide (s.lastStable < ms)) (markStable ms (decide (ms ≤ s.lastExecuted)))
  let s ← get
  assert (decide (s.lastStable ≤ min ∧ max - s.lastStable - 1 ≤ cfg.P.maxOut))
  each (newViewRequest cfg id h) (intRange (min + 1) max)
  let s ← get
  when (s.isPrimary cfg id) (sendPrePrepare cfg id)
  let s ← get
  if s.lastExecuted < min then do
    modify fun s => { s with hasNvState := false }
    onState fun st => st.startFetch cfg s.lastExecuted
  else modify fun s => { s with hasNvState := true }

def handleCallOr (more : Int → Bool → Prog Replica Unit) (deeper : NVCall → Prog Replica Unit)
    (fuel : Nat) : Nat → NVCall → Prog Replica Unit
  | 0, c => deeper c
  | _ + 1, .sendStatus => sendStatus cfg
  | depth + 1, .processNewView min _ max ms =>
    processNewViewOr cfg id (handleCallOr more deeper fuel depth)
      (markStableOr cfg id (handleCallOr more deeper fuel depth) more fuel) min max ms

variable {cfg id}

theorem markStable_eq (h : NVCall → Prog Replica Unit) :
    ∀ (fuel : Nat) (n : Int) (haveState : Bool),
    markStable cfg id h fuel n haveState =
      markStableOr cfg id h (fun _ _ => pure ()) fuel n haveState
  | 0, _, _ => rfl
  | fuel + 1, n, haveState => by
    have ih : markStable cfg id h fuel = markStableOr cfg id h (fun _ _ => pure ()) fuel :=
      funext fun n => funext fun haveState => markStable_eq h fuel n haveState
    rw [markStable, markStableOr, ih]

theorem handleCall_eq : ∀ (depth : Nat) (c : NVCall),
    handleCall cfg id depth c = handleCallOr cfg id (fun _ _ => pure ())
      (fun _ => Prog.stop) (stableFuel cfg) depth c
  | 0, _ => rfl
  | _ + 1, .sendStatus => rfl
  | depth + 1, .processNewView min d max ms => by
    have ih : handleCall cfg id depth =
      handleCallOr cfg id (fun _ _ => pure ()) (fun _ => Prog.stop) (stableFuel cfg) depth :=
      funext fun c => handleCall_eq depth c
    have hms : markStable cfg id (handleCall cfg id depth) (stableFuel cfg) =
        markStableOr cfg id (handleCallOr cfg id (fun _ _ => pure ())
          (fun _ => Prog.stop) (stableFuel cfg) depth) (fun _ _ => pure ()) (stableFuel cfg) := by
      rw [← ih]
      exact funext fun n => funext fun haveState => markStable_eq _ _ n haveState
    rw [handleCall, handleCallOr, ← hms, ← ih]
    rfl

end Bounded

/-! ## Programs that neither move the window nor ask for a new view -/

/-- `vi` and `last_stable` stay, and checkpoints only leave `sset`. -/
structure Settles (s t : Replica) : Prop where
  vi : t.vi = s.vi
  lastStable : t.lastStable = s.lastStable
  sset : ∀ i, t.sset i = none ∨ t.sset i = s.sset i

instance : IsPreorder Replica Settles where
  refl _ := ⟨rfl, rfl, fun _ => .inr rfl⟩
  trans _ _ _ h h' :=
    ⟨h'.vi.trans h.vi, h'.lastStable.trans h.lastStable, fun i => (h'.sset i).elim .inl fun hi => by
    rw [hi]
    exact h.sset i⟩

variable {cfg : Cfg} {id : Nat} {s t u : Replica} {α : Type}

theorem settles_of_eq (hvi : t.vi = s.vi) (hls : t.lastStable = s.lastStable)
    (hset : t.sset = s.sset) : Settles s t :=
  ⟨hvi, hls, fun i => .inr (congrFun hset i)⟩

theorem fetchE_settles (n : Int) : Always Settles (fetchE cfg n) := .get_bind fun _ => .ofOption

theorem setE_settles (n : Int) (c : Certificate Checkpoint) : Always Settles (setE cfg n c) :=
  .modify fun _ => settles_of_eq rfl rfl rfl

theorem fetchP_settles (n : Int) : Always Settles (fetchP cfg n) := .get_bind fun _ => .ofOption

theorem setP_settles (n : Int) (c : PreparedCert) : Always Settles (setP cfg n c) :=
  .modify fun _ => settles_of_eq rfl rfl rfl

theorem fetchC_settles (n : Int) : Always Settles (fetchC cfg n) := .get_bind fun _ => .ofOption

theorem setC_settles (n : Int) (c : Certificate Commit) : Always Settles (setC cfg n c) :=
  .modify fun _ => settles_of_eq rfl rfl rfl

theorem emit_settles (dest : Option Nat) (m : Msg) : Always Settles (emit dest m) :=
  .modify fun _ => settles_of_eq rfl rfl rfl

theorem onState_settles (op : State → Option State) : Always Settles (onState op) :=
  .get_bind fun _ => .ofOption_bind fun _ => .modify fun _ => settles_of_eq rfl rfl rfl

theorem sendStatus_settles : Always Settles (sendStatus cfg) := by
  refine .get_bind fun s => .when (.modify_bind (fun _ => settles_of_eq rfl rfl rfl) (.when ?_))
  refine .bind (.when (.each (fun n => ?_) _)) fun _ => emit_settles _ _
  refine .bind (fetchP_settles n) fun pc => .ofOption_bind fun complete => .when ?_
  exact .bind (fetchC_settles n) fun _ => .pure

theorem staleE_settles (n : Int) : Always Settles (staleE cfg n) :=
  .when (.bind (fetchE_settles n) fun _ => .ofOption_bind fun _ => setE_settles n _)

theorem stalePC_settles (n : Int) : Always Settles (stalePC cfg id n) := by
  refine .bind (fetchP_settles n) fun pc => .get_bind
    fun s => .ofOption_bind fun pc => .bind (setP_settles n pc) fun _ => ?_
  exact .bind (fetchC_settles n) fun cc => .ofOption_bind fun cc => setC_settles n cc

theorem ownStable_settles (n : Int) : Always Settles (ownStable cfg id n) := by
  refine .bind (fetchE_settles n) fun e => ?_
  cases e.mine with
  | some _ => exact setE_settles n _
  | none => exact .get_bind fun s => .ofOption_bind fun r => setE_settles n _

theorem haveCkpt_settles (n : Int) : Always Settles (haveCkpt cfg n) :=
  .get_bind fun _ => .ite (.bind (fetchE_settles n) fun _ => .pure) .pure

theorem createPrePrepare_settles (batch : List UInt8) :
    Always Settles (createPrePrepare cfg id batch) := by
  refine .modify_bind (fun _ => settles_of_eq rfl rfl rfl) (.get_bind
    fun s => .modify_bind (fun _ => settles_of_eq rfl rfl rfl) ?_)
  refine .bind (emit_settles _ _) fun _ => .bind (fetchP_settles _)
    fun pc => .ofOption_bind fun pc => setP_settles _ pc

theorem sendPrePrepare_settles : Always Settles (sendPrePrepare cfg id) := by
  refine .get_bind fun s =>
    .assert_bind (.when (.bind ?_ fun batch => createPrePrepare_settles batch))
  exact .get_bind fun s => .modify_bind (fun _ => settles_of_eq rfl rfl rfl) .pure

/-! ## The checkpoints that move -/

/-- None of the checkpoints of the replicas in `is` is in the window any more. -/
def Ahead (cfg : Cfg) (is : List Nat) (s : Replica) : Prop :=
  ∀ i ∈ is, ∀ c, s.sset i = some c → s.lastStable + cfg.P.maxOut < c.seqno

theorem Settles.ahead (h : Settles s t) {is : List Nat} (hs : Ahead cfg is s) : Ahead cfg is t := by
  intro i hi c hc
  rw [h.lastStable]
  refine hs i hi c ?_
  rcases h.sset i with hn | he
  · rw [hn] at hc
    cases hc
  · rw [← he, hc]

/-- What is found stable is no longer in `sset`. -/
theorem moveCkpt_ensures (newLs : Int) (i : Nat) (s : Replica) : Ensures (moveCkpt cfg id newLs i) s
    (fun r t => Settles s t ∧ Ahead cfg [i] t ∧
        (newLs < r → (s.sset i).isSome = true ∧ t.sset i = none)) fun _ => True := by
  have hdrop : Settles s { s with sset := Function.update s.sset i none } := by
    refine ⟨rfl, rfl, fun k => ?_⟩
    by_cases hk : k = i
    · subst hk
      exact .inl (Function.update_self ..)
    · exact .inr (Function.update_of_ne hk _ _)
  have hnone : ∀ {t : Replica}, t.sset i = none → Ahead cfg [i] t := by
    intro t ht k hk c hc
    rw [List.mem_singleton.1 hk, ht] at hc
    cases hc
  refine Reaches.get_bind ?_
  cases hc : s.sset i with
  | none => exact Reaches.pure ⟨refl_of Settles s, hnone hc, fun h => absurd h (lt_irrefl _)⟩
  | some c =>
    refine Reaches.ite (fun _ => ?_) fun hge => Reaches.ite (fun _ => ?_) fun hgt => ?_
    · exact Reaches.modify_bind trivial
        (Reaches.pure ⟨hdrop, hnone (Function.update_self ..), fun h => absurd h (lt_irrefl _)⟩)
    · refine Ensures.bind (Q := fun _ t => t = s)
        (Reaches.get_bind (Reaches.ofOption trivial fun _ _ => rfl)) ?_
      rintro cs _ rfl
      refine Reaches.modify_bind trivial (Reaches.ofOption_bind trivial
        fun r _ => Reaches.modify_bind trivial (Reaches.pure ?_))
      exact ⟨⟨rfl, rfl, hdrop.sset⟩, hnone (Function.update_self ..),
        fun _ => ⟨rfl, Function.update_self ..⟩⟩
    · refine Reaches.pure ⟨refl_of Settles s, ?_, fun h => absurd h (lt_irrefl _)⟩
      intro k hk d hd
      rw [List.mem_singleton.1 hk, hc] at hd
      cases hd
      omega

/-- The loop over `sset`. -/
theorem moveCkpts_ensures (is : List Nat) (newLs : Int) (s : Replica) :
    Ensures (moveCkpts cfg id is newLs) s
    (fun r t => Settles s t ∧ Ahead cfg is t ∧
        (newLs < r → ∃ i ∈ is, (s.sset i).isSome = true ∧ t.sset i = none)) fun _ => True := by
  induction is generalizing newLs s with
  | nil =>
    exact Reaches.pure ⟨refl_of Settles s, fun _ hi =>
      absurd hi List.not_mem_nil, fun h => absurd h (lt_irrefl _)⟩
  | cons i is ih =>
    refine Ensures.bind (moveCkpt_ensures newLs i s)
      fun r t ht => (ih r t).imp (fun r' u hu => ?_) fun _ h => h
    obtain ⟨hst, hi, hmoved⟩ := ht
    obtain ⟨htu, his, hrest⟩ := hu
    refine ⟨trans_of Settles hst htu, fun k hk => ?_, fun hlt => ?_⟩
    · rcases List.mem_cons.1 hk with rfl | hk
      · exact htu.ahead hi k (List.mem_singleton_self k)
      · exact his k hk
    · by_cases hr : newLs < r
      · refine ⟨i, List.mem_cons_self .., (hmoved hr).1, ?_⟩
        rcases htu.sset i with hn | he
        · exact hn
        · exact he.trans (hmoved hr).2
      · obtain ⟨k, hk, hsome, hnone⟩ := hrest (by omega)
        refine ⟨k, List.mem_cons_of_mem i hk, ?_, hnone⟩
        rcases hst.sset k with hn | he
        · rw [hn] at hsome
          cases hsome
        · exact he ▸ hsome

theorem Settles.isSome (h : Settles s t) {i : Nat} (hi : (t.sset i).isSome = true) :
    (s.sset i).isSome = true := by
  rcases h.sset i with hn | he
  · rw [hn] at hi
    cases hi
  · exact he ▸ hi

theorem Settles.ssetSize_le (h : Settles s t) : t.ssetSize cfg ≤ s.ssetSize cfg :=
  List.countP_mono_left fun _ _ hi => h.isSome hi

theorem Settles.ssetSize_lt (h : Settles s t) {i : Nat} (hi : i < cfg.n)
    (hs : (s.sset i).isSome = true) (ht : t.sset i = none) :
    t.ssetSize cfg < s.ssetSize cfg := by
  have hone := Count.countP_insert (P := fun k => decide (k ≠ i) && (s.sset k).isSome)
    (Q := fun k => (s.sset k).isSome)
    List.nodup_range (List.mem_range.2 hi) (by simp) fun k hk => by simp [hk]
  have hle : t.ssetSize cfg ≤ (List.range cfg.n).countP
    fun k => decide (k ≠ i) && (s.sset k).isSome := by
    refine List.countP_mono_left fun k _ hk => ?_
    have hki : k ≠ i := by
      rintro rfl
      rw [ht] at hk
      cases hk
    simp [hki, h.isSome hk]
  rw [if_pos hs] at hone
  have hsize : s.ssetSize cfg = (List.range cfg.n).countP fun k => (s.sset k).isSome := rfl
  omega

/-! ## Programs that do the same -/

/-- `J` holds of `vi`; at most `k` checkpoints are in `sset`, and `last_stable` is not below `m`. -/
structure Held (cfg : Cfg) (J : ViewInfo → Prop) (k : Nat) (m : Int) (s : Replica) : Prop where
  vi : J s.vi
  stored : s.ssetSize cfg ≤ k
  stable : m ≤ s.lastStable

variable {J : ViewInfo → Prop} {k : Nat} {m : Int}

theorem Settles.held (h : Settles s t) (hs : Held cfg J k m s) : Held cfg J k m t :=
  ⟨h.vi ▸ hs.vi, h.ssetSize_le.trans hs.stored, h.lastStable ▸ hs.stable⟩

theorem Held.same (hs : Held cfg J k m s) (hvi : t.vi = s.vi) (hls : t.lastStable = s.lastStable)
    (hset : t.sset = s.sset) :
    Held cfg J k m t := (settles_of_eq hvi hls hset).held hs

theorem Held.weaken {k' : Nat} {m' : Int} (hs : Held cfg J k m s) (hk : k ≤ k') (hm : m' ≤ m) :
    Held cfg J k' m' s :=
  ⟨hs.vi, hs.stored.trans hk, hm.trans hs.stable⟩

/-- With either handler of the calls, the operations of `vi` do the same where `J` holds. -/
structure Matches (cfg : Cfg) (id : Nat) (J : ViewInfo → Prop)
    (h h' : NVCall → Prog Replica Unit) : Prop where
  onVi : ∀ {α : Type} {op : Prog ViewInfo α}, Stays cfg id op → ∀ {k m s}, Held cfg J k m s →
    Agrees (onVi h op) (onVi h' op) s fun _ t => Held cfg J k m t

theorem settles_agrees {x : Prog Replica α} (hx : Always Settles x) (hs : Held cfg J k m s) :
    Agrees x x s fun _ t => Held cfg J k m t :=
  .of_always hx fun _ _ ht => ht.held hs

section Matches

variable {h h' : NVCall → Prog Replica Unit} (hm : Matches cfg id J h h') (hid : id < cfg.n)

include hm hid

theorem sendNewKey_agrees (hs : Held cfg J k m s) :
    Agrees (sendNewKey cfg id h) (sendNewKey cfg id h') s fun _ t => Held cfg J k m t := by
  refine .bind (settles_agrees (emit_settles _ _) hs) fun _ t ht => .get_bind ?_
  refine .bind (settles_agrees (.each (fun n => staleE_settles n) _) ht) fun _ u hu => ?_
  refine .bind (settles_agrees (.each (fun n => stalePC_settles n) _) hu) fun _ w hw => ?_
  exact hm.onVi (fun hok houts => ViewInfo.markStale_keeps hid hok houts) hw

theorem updateMaxRec_agrees (hs : Held cfg J k m s) :
    Agrees (updateMaxRec cfg id h) (updateMaxRec cfg id h') s fun _ t => Held cfg J k m t :=
  .get_bind (.when (fun _ => .modify_bind (sendNewKey_agrees hm hid (hs.same rfl rfl rfl)))
    fun _ => hs)

/-- The window moves up to `n`, and stays there or goes further. -/
theorem advance_agrees {n : Int} (hs : Held cfg J k m s) (haveState : Bool) :
    Agrees (advance cfg id h n haveState) (advance cfg id h' n haveState) s
      fun _ t => Held cfg J k n t := by
  have hup : Held cfg J k n { s with lastStable := n,
                                     lowBound := if s.lowBound < n then n else s.lowBound } :=
    ⟨hs.vi, hs.stored, le_rfl⟩
  refine .modify_bind (.get_bind (.bind (Q := fun _ t => Held cfg J k n t) (.when (fun _ => ?_)
    fun _ => hup) fun _ t ht => ?_))
  · refine .modify_bind (.bind (updateMaxRec_agrees hm hid (hup.same rfl rfl rfl)) fun _ t ht => ?_)
    exact .modify (ht.same rfl rfl rfl)
  · refine .modify_bind (.get_bind (.bind (Q := fun _ t => Held cfg J k n t) ?_ fun _ u hu => ?_))
    · exact hm.onVi (fun hok _ => ViewInfo.markStable_keeps hid hok _) (ht.same rfl rfl rfl)
    · refine .get_bind (.ofOption_bind fun e _ => .modify_bind (.get_bind ?_))
      exact settles_agrees (onState_settles _) (hu.same rfl rfl rfl)

/-- **`mark_stable`**: bounds above the number of checkpoints in `sset` are never reached. Where the
window moves, no checkpoint stays in `sset` that it covers. -/
theorem markStableOr_agrees (more more' : Int → Bool → Prog Replica Unit) {fuel fuel' : Nat}
    (hk : k < fuel) (hk' : k < fuel') (n : Int) (haveState : Bool) (hs : Held cfg J k m s) :
    Agrees (markStableOr cfg id h more fuel n haveState)
      (markStableOr cfg id h' more' fuel' n haveState) s
      fun _ t => Held cfg J k m t ∧
        (s.lastStable < n → n ≤ t.lastStable ∧ Ahead cfg (List.range cfg.n) t) := by
  induction fuel generalizing fuel' k m n haveState s with
  | zero => exact absurd hk (Nat.not_lt_zero k)
  | succ fuel ih =>
    obtain ⟨fuel', rfl⟩ : ∃ f, fuel' = f + 1 := ⟨fuel' - 1, by omega⟩
    rw [markStableOr, markStableOr]
    refine .get_bind (.when (fun hlt => ?_) fun hge => ⟨hs, fun hlt => ?_⟩)
    swap
    · simp [hlt] at hge
    have hlt : s.lastStable < n := of_decide_eq_true hlt
    have hn : m ≤ n := hs.stable.trans hlt.le
    have hdone : ∀ {t}, Held cfg J k n t → Ahead cfg (List.range cfg.n) t →
        Held cfg J k m t ∧ (s.lastStable < n → n ≤ t.lastStable ∧ Ahead cfg (List.range cfg.n) t) :=
          fun ht ha =>
      ⟨ht.weaken le_rfl hn, fun _ => ⟨ht.stable, ha⟩⟩
    refine .bind (advance_agrees hm hid hs haveState) fun _ t ht => .get_bind ?_
    refine .bind (Q := fun _ t => Held cfg J k n t) ?_ fun _ u hu => .get_bind ?_
    · exact .when (fun _ => settles_agrees (ownStable_settles _) ht) fun _ => ht
    refine .bind (.of_ensures (moveCkpts_ensures (List.range cfg.n) u.lastStable u)) ?_
    rintro newLs w ⟨huw, hahead, hmoved⟩
    have hw : Held cfg J k n w := huw.held hu
    refine .get_bind (.bind (Q := fun _ x => Held cfg J k n x ∧ Ahead cfg (List.range cfg.n) x)
      (.when (fun hnew => ?_) fun _ => ⟨hw, hahead⟩) ?_)
    · -- a checkpoint has left `sset`
      have hnew : w.lastStable < newLs := of_decide_eq_true hnew
      obtain ⟨i, hi, hsome, hnone⟩ := hmoved (huw.lastStable ▸ hnew)
      have hless : w.ssetSize cfg < u.ssetSize cfg :=
        huw.ssetSize_lt (List.mem_range.1 hi) hsome hnone
      have hstored := hu.stored
      have hw' : Held cfg J (k - 1) n w := ⟨hw.vi, by omega, hw.stable⟩
      refine .bind (.of_always (haveCkpt_settles newLs) fun _ _ hx => hx) fun have' x hx => ?_
      refine (ih (k := k - 1) (m := n) (by omega) (by omega) newLs have' (hx.held hw')).mono
        fun _ y hy => ?_
      exact ⟨hy.1.weaken (by omega) le_rfl, (hy.2 (hx.lastStable ▸ hnew)).2⟩
    · rintro _ x ⟨hx, hax⟩
      refine .get_bind (.when (fun _ => .of_always sendPrePrepare_settles fun _ y hy => ?_)
        fun _ => hdone hx hax)
      exact hdone (hy.held hx) (hy.ahead hax)

theorem newViewRequest_agrees (hs : Held cfg J k m s) (n : Int) :
    Agrees (newViewRequest cfg id h n) (newViewRequest cfg id h' n) s
      fun _ t => Held cfg J k m t := by
  refine .get_bind (.bind (hm.onVi (fun hok _ => ViewInfo.fetchRequest_keeps hid hok n) hs)
    fun r t ht => settles_agrees ?_ ht)
  refine .bind (fetchP_settles n) fun pc => .get_bind fun s => .ite ?_ ?_
  · exact .modify_bind (fun _ => settles_of_eq rfl rfl rfl) (.ofOption_bind
      fun pc => setP_settles n pc)
  · refine .ofOption_bind fun r' =>
      .modify_bind (fun _ => settles_of_eq rfl rfl rfl) (.assert_bind (.ofOption_bind fun pc => ?_))
    exact setP_settles n pc

/-- **`process_new_view`**, with a `mark_stable` that may be called less deep. -/
theorem processNewViewOr_agrees (more more' : Int → Bool → Prog Replica Unit) {fuel fuel' : Nat}
    (hk : k < fuel) (hk' : k < fuel') (min max ms : Int) (hs : Held cfg J k m s) :
    Agrees (processNewViewOr cfg id h (markStableOr cfg id h more fuel) min max ms)
      (processNewViewOr cfg id h' (markStableOr cfg id h' more' fuel') min max ms) s
        fun _ t => Held cfg J k m t := by
  refine .assert_bind fun _ => .get_bind
    (.bind (Q := fun _ t => Held cfg J k m t) (.when (fun _ => ?_) fun _ => hs) fun _ t ht => ?_)
  · refine .modify_bind (.ofOption_bind fun nv _ =>
      settles_agrees (emit_settles _ _) (hs.same rfl rfl rfl))
  refine .modify_bind (.bind (Q := fun _ u => Held cfg J k m u) (.when (fun _ => ?_)
    fun _ => ht.same rfl rfl rfl) fun _ u hu => ?_)
  · refine (markStableOr_agrees hm hid more more' hk hk' _ _ ?_).mono fun _ _ hu => hu.1
    exact ht.same rfl rfl rfl
  refine .get_bind (.assert_bind fun _ => .bind
    (.each (fun i _ w hw => newViewRequest_agrees hm hid hw i) hu) fun _ w hw => .get_bind ?_)
  refine .bind (Q := fun _ x => Held cfg J k m x)
    (.when (fun _ => settles_agrees sendPrePrepare_settles hw) fun _ => hw) fun _ x hx => ?_
  refine .get_bind (.ite (fun _ => .modify_bind ?_) fun _ => .modify (hx.same rfl rfl rfl))
  exact settles_agrees (onState_settles _) (hx.same rfl rfl rfl)

end Matches

/-! ## The calls from `vi` -/

/-- Nothing is left to be done for `vi`. -/
structure Steady (cfg : Cfg) (id : Nat) (w : ViewInfo) : Prop where
  ok : ViewInfo.Ok cfg id w
  outs : w.outs = []

/-- The new view of the current view is complete, so that no other one is asked for. -/
structure Complete (cfg : Cfg) (id : Nat) (w : ViewInfo) : Prop extends Steady cfg id w where
  complete : w.hasNewView cfg w.v = true

section Calls

variable {h h' : NVCall → Prog Replica Unit} (hstatus : h .sendStatus = sendStatus cfg)
    (hstatus' : h' .sendStatus = sendStatus cfg)

include hstatus hstatus'

/-- What is asked for is done alike, if new views are processed alike. -/
theorem perform_agrees {outs : List Out} (hs : Held cfg J k m s)
    (hnew : ∀ min d max ms, .call (.processNewView min d max ms) ∈ outs → ∀ t, Held cfg J k m t →
      Agrees (h (.processNewView min d max ms)) (h' (.processNewView min d max ms)) t
        fun _ u => Held cfg J k m u) :
    Agrees (perform h outs) (perform h' outs) s fun _ t => Held cfg J k m t := by
  refine .each (fun o ho t ht => ?_) hs
  cases o with
  | send dest msg => exact settles_agrees (emit_settles dest msg) ht
  | call c =>
    cases c with
    | sendStatus =>
      change Agrees (h .sendStatus) (h' .sendStatus) t _
      rw [hstatus, hstatus']
      exact settles_agrees sendStatus_settles ht
    | processNewView min d max ms => exact hnew min d max ms ho t ht

omit hstatus hstatus' in
theorem not_mem_of_pnvOuts {outs : List Out} (h0 : pnvOuts outs = 0) (min : Int) (d : Digest)
    (max ms : Int) :
    .call (.processNewView min d max ms) ∉ outs := fun hmem => by
  have := List.countP_eq_zero.1 h0 _ hmem
  exact this rfl

omit hstatus hstatus' in
/-- An operation of `vi` that stops stops the program too, once what it asked for is done. -/
theorem onVi_agrees {op : Prog ViewInfo α} {Q : α → Replica → Prop}
    (hsome : ∀ a, (op s.vi).1 = some a →
      Agrees (perform h (op s.vi).2.outs) (perform h' (op s.vi).2.outs) (served s (op s.vi).2)
        fun _ t => Q a t)
    (hnone : (op s.vi).1 = none →
      Agrees (perform h (op s.vi).2.outs) (perform h' (op s.vi).2.outs) (served s (op s.vi).2)
        fun _ _ => True) :
    Agrees (onVi h op) (onVi h' op) s Q := by
  refine .of_apply (p := do perform h (op s.vi).2.outs; ofOption (op s.vi).1)
    (q := do perform h' (op s.vi).2.outs; ofOption (op s.vi).1)
      (t := served s (op s.vi).2) rfl rfl ?_
  cases ho : (op s.vi).1 with
  | some a =>
    exact .bind (hsome a ho) fun _ t ht =>
      .of_ensures (Reaches.ofOption trivial fun b hb => by cases hb; exact ht)
  | none => exact .bind (hnone ho) fun _ t ht => .of_ensures (Reaches.ofOption trivial nofun)

theorem perform_agrees_of_quiet {outs : List Out} (hs : Held cfg J k m s) (h0 : pnvOuts outs = 0) :
    Agrees (perform h outs) (perform h' outs) s fun _ t => Held cfg J k m t :=
  perform_agrees hstatus hstatus' hs fun _ _ _ _ ho => absurd ho (not_mem_of_pnvOuts h0 _ _ _ _)

/-- While a new view is processed, no other one is asked for. -/
theorem complete_matches : Matches cfg id (Complete cfg id) h h' where
  onVi {α op} hop {k m s} hs := by
    have hquiet : pnvOuts s.vi.outs = 0 := by rw [hs.vi.outs]; rfl
    obtain ⟨hkept, hlost⟩ := (hop (K := True) (A := True) hs.vi.ok hquiet).result
    have hkeeps : ∀ {w}, ViewInfo.Kept cfg id True True s.vi w → pnvOuts w.outs = 0 := fun hk =>
      (hk.keeps trivial hs.vi.complete).2.trans hquiet
    refine onVi_agrees (fun a ha => ?_) fun hn => ?_
    · have hk := hkept a ha
      refine perform_agrees_of_quiet hstatus hstatus' ⟨⟨⟨hk.ok.served, rfl⟩, ?_⟩,
        hs.stored, hs.stable⟩ (hkeeps hk)
      exact (hk.keeps trivial hs.vi.complete).1
    · have h0 : pnvOuts (op s.vi).2.outs = 0 := (hlost hn).elim hkeeps fun h0 => h0
      exact (perform_agrees_of_quiet (J := fun _ => True) (s := served s (op s.vi).2)
        hstatus hstatus' ⟨trivial, hs.stored, hs.stable⟩ h0).mono fun _ _ _ => trivial

/-- A new view that is asked for is complete, and it is processed alike. -/
theorem steady_matches
    (hnew : ∀ {k m t} (min : Int) (d : Digest) (max ms : Int), Held cfg (Complete cfg id) k m t →
    Agrees (h (.processNewView min d max ms)) (h' (.processNewView min d max ms)) t
      fun _ u => Held cfg (Complete cfg id) k m u) :
    Matches cfg id (Steady cfg id) h h' where
  onVi {α op} hop {k m s} hs := by
    have hquiet : pnvOuts s.vi.outs = 0 := by rw [hs.vi.outs]; rfl
    obtain ⟨hkept, hlost⟩ := (hop (K := True) (A := True) hs.vi.ok hquiet).result
    have hdone : ViewInfo.Kept cfg id True True s.vi (op s.vi).2 →
        Agrees (perform h (op s.vi).2.outs) (perform h' (op s.vi).2.outs) (served s (op s.vi).2)
          fun _ t => Held cfg (Steady cfg id) k m t := by
      intro hk
      have honce : pnvOuts (op s.vi).2.outs = 0 ∨ pnvOuts (op s.vi).2.outs = 1 := by
        have := hk.ok.once
        omega
      rcases honce with h0 | h1
      · exact perform_agrees_of_quiet hstatus hstatus' ⟨⟨hk.ok.served, rfl⟩,
          hs.stored, hs.stable⟩ h0
      · have hc : Held cfg (Complete cfg id) k m (served s (op s.vi).2) :=
          ⟨⟨⟨hk.ok.served, rfl⟩, hk.v ▸ hk.ok.complete h1⟩, hs.stored, hs.stable⟩
        refine (perform_agrees hstatus hstatus' hc
          fun min d max ms _ t ht => hnew min d max ms ht).mono fun _ t ht => ?_
        exact ⟨ht.vi.toSteady, ht.stored, ht.stable⟩
    refine onVi_agrees (fun a ha => hdone (hkept a ha)) fun hn => ?_
    rcases hlost hn with hk | h0
    · exact (hdone hk).mono fun _ _ _ => trivial
    · exact (perform_agrees_of_quiet (J := fun _ => True) (s := served s (op s.vi).2)
        hstatus hstatus' ⟨trivial, hs.stored, hs.stable⟩ h0).mono fun _ _ _ => trivial

end Calls

section Depth

variable (more more' : Int → Bool → Prog Replica Unit) (deeper deeper' : NVCall → Prog Replica Unit)

theorem ssetSize_le (s : Replica) : s.ssetSize cfg ≤ cfg.n :=
  List.countP_le_length.trans (List.length_range ..).le

variable {fuel fuel' : Nat} (hid : id < cfg.n) (hfuel : cfg.n < fuel) (hfuel' : cfg.n < fuel')

include hid hfuel hfuel'

/-- **From a complete new view calls go one deep.** -/
theorem handleCallOr_agrees (depth depth' : Nat) (min : Int) (d : Digest) (max ms : Int)
    (hs : Held cfg (Complete cfg id) k m s) :
    Agrees (handleCallOr cfg id more deeper fuel (depth + 2) (.processNewView min d max ms))
      (handleCallOr cfg id more' deeper' fuel' (depth' + 2) (.processNewView min d max ms)) s
      fun _ t => Held cfg (Complete cfg id) k m t := by
  have hm : Matches cfg id (Complete cfg id) (handleCallOr cfg id more deeper fuel (depth + 1))
    (handleCallOr cfg id more' deeper' fuel' (depth' + 1)) :=
    complete_matches rfl rfl
  have hs' : Held cfg (Complete cfg id) (Nat.min k cfg.n) m s :=
    ⟨hs.vi, Nat.le_min.2 ⟨hs.stored, ssetSize_le s⟩, hs.stable⟩
  have hle : Nat.min k cfg.n ≤ cfg.n := Nat.min_le_right ..
  refine (processNewViewOr_agrees hm hid more more' (by omega) (by omega) min max ms hs').mono
    fun _ t ht => ?_
  exact ht.weaken (Nat.min_le_left ..) le_rfl

/-- **From any state between two operations of `vi`**. -/
theorem markStable_agrees (depth depth' : Nat) (n : Int) (haveState : Bool)
    (hs : Steady cfg id s.vi) :
    Agrees (markStableOr cfg id (handleCallOr cfg id more deeper fuel (depth + 2))
        more fuel n haveState)
      (markStableOr cfg id (handleCallOr cfg id more' deeper' fuel' (depth' + 2))
          more' fuel' n haveState) s
      fun _ t => s.lastStable ≤ t.lastStable ∧
        (s.lastStable < n → n ≤ t.lastStable ∧ Ahead cfg (List.range cfg.n) t) := by
  have hm : Matches cfg id (Steady cfg id) (handleCallOr cfg id more deeper fuel (depth + 2))
    (handleCallOr cfg id more' deeper' fuel' (depth' + 2)) :=
    steady_matches rfl rfl fun min d max ms ht =>
      handleCallOr_agrees more more' deeper deeper' hid hfuel hfuel' depth depth' min d max ms ht
  refine (markStableOr_agrees hm hid more more' hfuel hfuel' n haveState ⟨hs,
    ssetSize_le s, le_rfl⟩).mono fun _ t ht => ?_
  exact ⟨ht.1.stable, ht.2⟩

end Depth

/-- A `mark_stable` that is not above the stable checkpoint does nothing. -/
theorem markStable_of_le (h : NVCall → Prog Replica Unit) (fuel : Nat) {n : Int} (haveState : Bool)
    (hn : n ≤ s.lastStable) :
    markStable cfg id h fuel n haveState s = (some (), s) := by
  cases fuel with
  | zero => rfl
  | succ fuel =>
    rw [markStable, Prog.get_bind_apply, when, if_neg (by simpa using hn)]
    rfl

theorem steady_run (hid : id < cfg.n) (mem : Mem) (es : List (Oracle × Event))
    (hrun : (run cfg id (new cfg id mem) es).halted = false) :
    Steady cfg id (run cfg id (new cfg id mem) es).vi := by
  obtain ⟨v, hb⟩ := (run_inv hid es (s := new cfg id mem) ⟨(inv_new mem).numbered,
    fun _ => ⟨0, inv_new mem⟩⟩).running hrun
  exact ⟨hb.vi, hb.outs⟩

/-- **`mark_stable` ends, and moves the window up.** From every state in which nothing is left to be
done for `vi`, with any contents of `sset` and of the logs: no call of itself is more than `n` deep,
and no `process_new_view` is entered from inside another one; `last_stable` does not decrease; and
where it has increased, what is left in `sset` is above the new window. The states of a run are such
states, and so are those in which `process_new_view` is called. -/
theorem markStable_terminates (hid : id < cfg.n) :
    (∀ (mem : Mem) (es : List (Oracle × Event)), (run cfg id (new cfg id mem) es).halted = false →
      Steady cfg id (run cfg id (new cfg id mem) es).vi) ∧
    ∀ s : Replica, Steady cfg id s.vi → ∀ (n : Int) (haveState : Bool),
      (∀ (more : Int → Bool → Prog Replica Unit) (deeper : NVCall →
            Prog Replica Unit) (fuel depth : Nat),
        cfg.n < fuel → 2 ≤ depth →
          markStableOr cfg id (handleCallOr cfg id more deeper fuel depth) more fuel n haveState s =
            markStable cfg id (calls cfg id) (stableFuel cfg) n haveState s) ∧
      ∀ t, markStable cfg id (calls cfg id) (stableFuel cfg) n haveState s = (some (), t) →
        s.lastStable ≤ t.lastStable ∧
        (s.lastStable < t.lastStable →
          ∀ i < cfg.n, ∀ c, t.sset i = some c → t.lastStable + cfg.P.maxOut < c.seqno) := by
  refine ⟨fun mem es hrun => steady_run hid mem es hrun, fun s hs n haveState => ?_⟩
  have heq : markStable cfg id (calls cfg id) (stableFuel cfg) n haveState =
      markStableOr cfg id (handleCallOr cfg id (fun _ _ => pure ())
        (fun _ => Prog.stop) (stableFuel cfg) 3) (fun _ _ => pure ())
        (stableFuel cfg) n haveState := by
    rw [markStable_eq]
    congr 1
    exact funext fun c => handleCall_eq 3 c
  have hbound : cfg.n < stableFuel cfg := Nat.lt_succ_self _
  refine ⟨fun more deeper fuel depth hfuel hdepth => ?_, fun t ht => ?_⟩
  · obtain ⟨d, rfl⟩ := Nat.exists_eq_add_of_le' hdepth
    rw [heq]
    exact (markStable_agrees more _ deeper _ hid hfuel hbound d 1 n haveState hs).1
  · have hres := (markStable_agrees (fun _ _ => pure ())
      (fun _ _ => pure ()) (fun _ => Prog.stop) (fun _ => Prog.stop) hid
      hbound hbound 1 1 n haveState hs).2.result.1 ()
    rw [← heq, ht] at hres
    obtain ⟨hmono, hraised⟩ := hres rfl
    refine ⟨hmono, fun hlt i hi c hc => ?_⟩
    have hn : s.lastStable < n := by
      by_contra hn
      rw [markStable_of_le _ _ _ (by omega)] at ht
      cases ht
      exact lt_irrefl _ hlt
    exact (hraised hn).2 i (List.mem_range.2 hi) c hc

/-- Replicas 2, 3 and 0 have the stable checkpoint 6, above the window of replica 1. -/
def lagging : List (Oracle × Event) :=
  [Event.checkpoint ⟨6, 7, 2, true⟩ true false, .checkpoint ⟨6, 7, 3, true⟩ true false,
    .checkpoint ⟨6, 7, 0, true⟩ true false].map
    fun e => ({ Oracle.none with ckptAuth := fun _ => true }, e)

/-- What `mark_stable(2)` leaves. -/
def caughtUp : Option Unit × Replica :=
  markStable fourReplicas 1 (calls fourReplicas 1) (stableFuel fourReplicas)
    2 false (run fourReplicas 1 (new fourReplicas 1 fun _ => []) lagging)

/-- With the stable checkpoint 2 the three come into the window, and the replica goes on to 6. -/
theorem markStable_caughtUp :
    (run fourReplicas 1 (new fourReplicas 1 fun _ => []) lagging).lastStable = 0 ∧
      caughtUp.2.lastStable = 6 ∧
    ∀ i < fourReplicas.n, ∀ c, caughtUp.2.sset i = some c →
      caughtUp.2.lastStable + fourReplicas.P.maxOut < c.seqno := by
  have hreturns : caughtUp.1 = some () := by decide +kernel
  have hres : caughtUp = (some (), caughtUp.2) := by rw [← hreturns]
  have hraised : (run fourReplicas 1 (new fourReplicas 1 fun _ => []) lagging).lastStable <
    caughtUp.2.lastStable := by decide +kernel
  have hstable := @markStable_terminates fourReplicas 1 (by decide)
  have hend := (hstable.2 (run fourReplicas 1 (new fourReplicas 1 fun _ => []) lagging)
    (hstable.1 (fun _ => []) lagging (by decide +kernel)) 2 false).2 caughtUp.2 hres
  exact ⟨by decide +kernel, by decide +kernel, hend.2 hraised⟩

end Replica

end TinyBFT
