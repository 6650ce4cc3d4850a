import TinyBFT.StateTransfer

/-!
# The records that are looked up

The static log can be asked for the multiples of the interval in its window and for the sequence
number that `set_fetch_seqno` announced. `Safe x t Q` says that a program only makes such calls.
`discard_checkpoint` takes a checkpoint at `last_executed` without announcing it, and
`handle(Fetch)` looks up whatever sequence number in the window it is sent.
-/

namespace TinyBFT

open RecordOp

variable {P : Params} {c : TreeCfg}

namespace CheckpointRecordLog

variable {l l' : CheckpointRecordLog} {n m : Int}

/-- No two of the sequence numbers that may be asked for share a record. -/
theorem allowed_inj (hh : l.head % P.ckptInterval = 0) (hn : l.Allowed P n) (hm : l.Allowed P m)
    (h : l.recordIndex P n = l.recordIndex P m) : n = m := by
  have hlt : ∀ {k : Int}, k % P.ckptInterval = 0 → l.recordIndex P k < slots P := by
    intro k hk
    rw [recordIndex, if_neg (not_not.2 hk)]
    exact Nat.mod_lt _ (Nat.succ_pos _)
  have hlast : ∀ {k : Int}, k % P.ckptInterval ≠ 0 → l.recordIndex P k = slots P :=
    fun hk => by rw [recordIndex, if_pos hk]
  by_cases hn0 : n % P.ckptInterval = 0
  · by_cases hm0 : m % P.ckptInterval = 0
    · exact recordIndex_inj hh hn0 hm0 hn.1 hm.1 h
    · have := hlt hn0
      rw [h, hlast hm0] at this
      omega
  · by_cases hm0 : m % P.ckptInterval = 0
    · have := hlt hm0
      rw [← h, hlast hn0] at this
      omega
    · rcases hn.2 with hn2 | hn2
      · exact absurd hn2 hn0
      · rcases hm.2 with hm2 | hm2
        · exact absurd hm2 hm0
        · exact hn2.symm.trans hm2

theorem truncate_head (h : l.truncate P n = some l') :
    l'.head = max l.head n ∧ (l.head % P.ckptInterval = 0 → l'.head % P.ckptInterval = 0) ∧
      l'.fetchSeqno = l.fetchSeqno := by
  unfold truncate at h
  split at h
  · cases h
  rename_i hmult
  have hmult : n % P.ckptInterval = 0 := not_not.1 hmult
  split at h
  · cases h
    exact ⟨(max_eq_left ‹_›).symm, id, rfl⟩
  · split at h
    · cases h
      exact ⟨(max_eq_right (le_of_not_ge ‹_›)).symm, fun _ => hmult, rfl⟩
    · cases h
      exact ⟨(max_eq_right (le_of_not_ge ‹_›)).symm, fun _ => hmult, rfl⟩

end CheckpointRecordLog

namespace FetchState

open Prog CheckpointRecordLog

variable {t u : FetchState} {n : Int} {α β ι : Type}

/-- Every call so far met the precondition. -/
def AllowedCalls (P : Params) (t : FetchState) : Prop := ∀ call ∈ t.calls, call.1.Allowed P call.2

def Keep (P : Params) (t u : FetchState) : Prop := AllowedCalls P t → AllowedCalls P u

/-- The program makes allowed calls only, and if it returns, then with `Q`. -/
abbrev Safe (P : Params) (x : Prog FetchState α) (t : FetchState)
    (Q : α → FetchState → Prop) : Prop :=
  Reaches (Keep P) (Keep P) x t Q

/-- A program that makes allowed calls and leaves memory, tree and log alone. -/
def Reads (P : Params) (t : FetchState) (x : Prog FetchState α) : Prop :=
  ∀ u, u.s = t.s → Safe P x u fun _ v => v.s = t.s

theorem keep_refl : Keep P t t := id

theorem keep_of_calls (h : u.calls = t.calls) : Keep P t u := fun ht call hc => ht call (h ▸ hc)

namespace Reads

variable {x : Prog FetchState α} {f : α → Prog FetchState β}

theorem pure {a : α} : Reads P t (Pure.pure a : Prog FetchState α) := fun _ hu => .pure hu

theorem bind (hx : Reads P t x) (hf : ∀ a, Reads P t (f a)) : Reads P t (x >>= f) := fun u hu =>
  Reaches.bind (hx u hu) fun a v _ hv => hf a v hv

theorem get_bind {f : FetchState → Prog FetchState β} (hf : ∀ u, u.s = t.s → Reads P t (f u)) :
    Reads P t (Prog.get >>= f) := fun u hu => Reaches.get_bind (hf u hu u hu)

theorem stop : Reads P t (Prog.stop : Prog FetchState α) := fun _ _ => .stop keep_refl

theorem assert_bind {b : Bool} {f : Unit → Prog FetchState β} (hf : b = true → Reads P t (f ())) :
    Reads P t (Prog.assert b >>= f) := fun u hu => .assert_bind keep_refl fun hb => hf hb u hu

theorem when {b : Bool} {x : Prog FetchState Unit} (hx : b = true → Reads P t x) :
    Reads P t (Prog.when b x) := fun u hu =>
  .when (fun hb => hx hb u hu) fun _ => hu

theorem ite {p : Prop} [Decidable p] {x y : Prog FetchState α} (hx : p → Reads P t x)
    (hy : ¬p → Reads P t y) :
    Reads P t (if p then x else y) := fun u hu => .ite (fun hp => hx hp u hu) fun hp => hy hp u hu

theorem collect {x : ι → Prog FetchState (Option β)} {is : List ι}
    (hx : ∀ i ∈ is, Reads P t (x i)) :
    Reads P t (Prog.collect x is) := fun u hu => .collect is u (fun i hi v hv => hx i hi v hv) hu

theorem send {m : TransferMsg} : Reads P t (send m) := fun _ hu => .modify (keep_of_calls rfl) hu

end Reads

theorem fetchRec_reads (h : t.s.clog.Allowed P n) : Reads P t (fetchRec P n) := by
  intro u hu
  refine .get_bind (.modify_bind (fun hok call hc => ?_) (.ofOption keep_refl fun _ _ => hu))
  rcases List.mem_cons.1 hc with rfl | hc
  · rw [hu]
    exact h
  · exact hok call hc

/-! ## The invariant -/

/-- The log and the last checkpoint between operations. -/
structure LogInv (P : Params) (s : CowState) : Prop where
  head : s.clog.head % P.ckptInterval = 0
  nonneg : 0 ≤ s.clog.head
  le : s.lc ≤ s.clog.head + P.maxOut
  lc : s.clog.withinRange P s.lc = true → s.lc % P.ckptInterval = 0 ∨ s.clog.fetchSeqno = s.lc

theorem LogInv.congr {s s' : CowState} (hi : LogInv P s) (hlc : s'.lc = s.lc)
    (hh : s'.clog.head = s.clog.head) (hf : s'.clog.fetchSeqno = s.clog.fetchSeqno) :
    LogInv P s' := by
  refine ⟨by rw [hh]; exact hi.head, by rw [hh]; exact hi.nonneg, by rw [hlc, hh]; exact hi.le,
    fun hw => ?_⟩
  rw [hlc, hf]
  refine hi.lc ?_
  rw [hlc, withinRange_iff, hh] at hw
  exact withinRange_iff.2 hw

/-- A loop from `n` on asks for allowed records only. -/
def Scan (P : Params) (s : CowState) (n : Int) : Prop :=
  ∀ j : Nat, n + j * P.ckptInterval ≤ s.lc → s.clog.Allowed P (n + j * P.ckptInterval)

theorem LogInv.scan {s : CowState} (hi : LogInv P s) (hn : n % P.ckptInterval = 0)
    (hh : s.clog.head ≤ n) : Scan P s n := by
  intro j hj
  have hjK : (0 : Int) ≤ j * P.ckptInterval := by positivity
  have := hi.le
  exact ⟨withinRange_iff.2 ⟨by omega, by omega⟩,
    .inl (by rw [Int.add_mul_emod_self_right]; exact hn)⟩

/-- From a sequence number on that is the last one of the loop. -/
theorem scan_last {s : CowState} (hn : s.clog.Allowed P n) (hlt : s.lc < n + P.ckptInterval) :
    Scan P s n := by
  intro j hj
  have hK := P.ckptInterval_pos
  cases j with
  | zero => simpa using hn
  | succ j =>
    have hjK : (0 : Int) ≤ j * P.ckptInterval := by positivity
    have : ((j + 1 : Nat) : Int) * P.ckptInterval = j * P.ckptInterval + P.ckptInterval := by
      push_cast
      ring
    omega

theorem LogInv.scan_lc {s : CowState} (hi : LogInv P s) (hw : s.clog.withinRange P s.lc = true) :
    Scan P s s.lc := by
  have hK := P.ckptInterval_pos
  exact scan_last ⟨hw, hi.lc hw⟩ (by omega)

/-! ## Old partitions -/

theorem search_reads {k : PartKey} :
    ∀ {fuel : Nat} {n : Int}, Scan P t.s n → Reads P t (search P k fuel n)
  | 0, _, _ => Reads.stop
  | fuel + 1, n, h => by
    refine .get_bind fun u hu => ?_
    refine .ite (fun _ => .stop) fun hlc => .bind (fetchRec_reads ?_) fun r => ?_
    · have := h 0
      simp only [Nat.cast_zero, zero_mul, add_zero] at this
      exact this (by rw [← hu]; omega)
    · split
      · exact .pure
      · refine search_reads fun j hj => ?_
        have heq : n + P.ckptInterval + j * P.ckptInterval =
          n + ((j + 1 : Nat) : Int) * P.ckptInterval := by push_cast; ring
        rw [heq] at hj ⊢
        exact h (j + 1) hj

theorem getMetaData_reads {l i : Nat} (h : t.s.clog.withinRange P n = true → Scan P t.s n) :
    Reads P t (getMetaData P n l i) := by
  refine .get_bind fun u hu => .assert_bind fun hw =>
    .ite (fun _ => .pure) fun _ => .bind (search_reads (h ?_)) fun _ => .pure
  rw [← hu]
  exact hw

theorem getData_reads {i : Nat} (h : t.s.clog.withinRange P n = true → Scan P t.s n) :
    Reads P t (getData P c n i) := by
  refine .get_bind fun u hu => .assert_bind fun hw =>
    .ite (fun _ => .pure) fun _ => .bind (search_reads (h ?_)) fun _ => .pure
  rw [← hu]
  rw [Bool.and_eq_true] at hw
  exact hw.1

theorem mem_seqnos {m : Int} (h : m ∈ seqnos P t n) :
    ∃ j : Nat, m = n + j * P.ckptInterval ∧ m ≤ t.s.lc := by
  have hK : (0 : Int) < P.ckptInterval := by have := P.ckptInterval_pos; omega
  obtain ⟨j, hj, rfl⟩ := List.mem_map.1 h
  refine ⟨j, rfl, ?_⟩
  rw [List.mem_range, CowState.rounds] at hj
  have : (j : Int) ≤ (t.s.lc - n) / P.ckptInterval := by omega
  rw [Int.le_ediv_iff_mul_le hK] at this
  omega

/-- The sequence numbers of a loop from a multiple in the window on. -/
theorem seqnos_scan (hi : LogInv P t.s) (hn : n % P.ckptInterval = 0) (hh : t.s.clog.head ≤ n)
    (hu : u.s = t.s) {m : Int} (hm : m ∈ seqnos P u n) : t.s.clog.Allowed P m ∧ Scan P t.s m := by
  obtain ⟨j, rfl, hle⟩ := mem_seqnos hm
  rw [hu] at hle
  have hjK : (0 : Int) ≤ j * P.ckptInterval := by positivity
  exact ⟨hi.scan hn hh j hle, hi.scan (by rw [Int.add_mul_emod_self_right]; exact hn) (by omega)⟩

/-! ## Fetching -/

theorem sendFetch_reads (hi : LogInv P t.s) : Reads P t (sendFetch P) := by
  refine .get_bind fun u hu => ?_
  have hhead : t.s.clog.Allowed P u.s.clog.head := by
    rw [hu]
    exact ⟨withinRange_iff.2 ⟨le_rfl, by omega⟩, .inl hi.head⟩
  split
  · exact .stop
  · refine .bind .send fun _ => .when fun _ => .bind (fetchRec_reads hhead)
      fun r => .when fun _ => .bind (.collect fun m hm => ?_)
      fun _ v hv => .modify (keep_of_calls rfl) hv
    rw [hu] at hm
    obtain ⟨hal, hscan⟩ := seqnos_scan hi hi.head le_rfl hu hm
    exact .bind (fetchRec_reads hal) fun r => .ite (fun _ => .pure)
      fun _ => .bind (getMetaData_reads fun _ => hscan) fun _ => .pure

/-- A checkpoint leaves the window alone, and is the last one. -/
theorem checkpoint_safe (hlc : t.s.clog.Allowed P t.s.lc) (hn : t.s.clog.Allowed P n) :
    Safe P (checkpoint P c n) t fun _ u =>
      u.s.lc = n ∧ u.s.clog.head = t.s.clog.head ∧ u.s.clog.fetchSeqno = t.s.clog.fetchSeqno := by
  refine .get_bind (.bind (fetchRec_reads hlc t rfl) fun r u _ hu => ?_)
  refine .ofOption_bind keep_refl fun w _ => .modify_bind (keep_of_calls rfl) ?_
  refine .bind (fetchRec_reads (P := P) (n := n) ?_ _ rfl)
    fun nr v _ hv => .modify (keep_of_calls rfl) ?_
  · rw [hu]
    exact hn
  · refine ⟨by simp only [hv], ?_, ?_⟩
    · simp only [CheckpointRecordLog.set, hv, hu]
    · simp only [CheckpointRecordLog.set, hv, hu]

/-- The window still has the last checkpoint or has moved past it. -/
theorem LogInv.truncate {s : CowState} {clog : CheckpointRecordLog} (hi : LogInv P s)
    (h : s.clog.truncate P n = some clog) :
    LogInv P { s with clog } := by
  obtain ⟨hhead, hmult, hf⟩ := truncate_head h
  have h0 := hi.nonneg
  have hle := hi.le
  refine ⟨hmult hi.head, by simp only; omega, by simp only; omega, fun hw => ?_⟩
  have hw := withinRange_iff.1 hw
  simp only at hw ⊢
  rw [hf]
  exact hi.lc (withinRange_iff.2 ⟨by omega, hle⟩)

theorem discard_safe {seqno le : Int} (hi : LogInv P t.s)
    (h : t.s.lc < seqno → t.s.lc < le → 0 ≤ t.s.lc →
      t.s.clog.Allowed P t.s.lc ∧ t.s.clog.Allowed P le) :
    Safe P (discard P c seqno le) t fun _ u => LogInv P u.s := by
  refine .get_bind (.bind (Q := fun _ u => LogInv P u.s) (.when (fun hcl => ?_) fun _ => hi)
    fun _ u _ hu => ?_)
  · simp only [Bool.and_eq_true, decide_eq_true_eq] at hcl
    obtain ⟨h1, h2⟩ := h hcl.1.1 hcl.1.2 hcl.2
    refine .bind (checkpoint_safe h1 h2) fun _ u _ hu => .modify (keep_of_calls rfl) ?_
    obtain ⟨-, hhead, -⟩ := hu
    have h0 := hi.nonneg
    refine ⟨by simp only [hhead]; exact hi.head, by simp only [hhead]; exact h0, by
      simp only [hhead]; omega, fun hw => ?_⟩
    have hw := (withinRange_iff.1 hw).1
    simp only [hhead] at hw
    omega
  · exact .get_bind (.ofOption_bind keep_refl fun clog hclog =>
      .modify (keep_of_calls rfl) (hu.truncate hclog))

theorem digest_reads (h : t.s.clog.withinRange P n = true → t.s.clog.Allowed P n) :
    Reads P t (digest P n) := by
  refine .get_bind fun u hu =>
    .ite (fun hw => .bind (fetchRec_reads (h ?_)) fun _ => .pure) fun _ => .pure
  rw [← hu]
  exact hw

theorem startFetch_safe {le rc : Int} {d : Digest} (hi : LogInv P t.s)
    (h : t.fetching = false → 0 ≤ t.s.lc → t.s.lc < le →
      t.s.clog.withinRange P t.s.lc = true ∧ t.s.lc % P.ckptInterval = 0 ∧
        t.s.clog.withinRange P le = true) :
    Safe P (startFetch P c le rc d) t fun _ u => LogInv P u.s := by
  refine .get_bind (.when (fun hf => .modify_bind (keep_of_calls rfl) ?_) fun _ => hi)
  simp only [Bool.not_eq_true'] at hf
  refine .bind (Q := fun _ u => LogInv P u.s) ?_ fun _ u _ hu => .modify_bind (keep_of_calls rfl)
    (.mono (sendFetch_reads (t := _) hu _ rfl) fun _ v hv => hv ▸ hu)
  refine .get_bind (.when (fun hcl => .modify_bind (keep_of_calls rfl) ?_) fun _ => hi)
  simp only [Bool.and_eq_true, decide_eq_true_eq] at hcl
  obtain ⟨h1, h2, h3⟩ := h hf hcl.1 hcl.2
  refine .mono (checkpoint_safe ⟨h1, .inl h2⟩ ⟨h3, .inr rfl⟩) fun _ u hu => ?_
  obtain ⟨hlc, hhead, hfs⟩ := hu
  have hhead : u.s.clog.head = t.s.clog.head := hhead
  have hfs : u.s.clog.fetchSeqno = le := hfs
  have hw := withinRange_iff.1 h3
  refine ⟨by rw [hhead]; exact hi.head, by rw [hhead]; exact hi.nonneg, by rw [hhead]; omega,
    fun _ => .inr ?_⟩
  rw [hfs, hlc]

/-! ## Answers -/

/-- What `handle(Fetch)` needs of the checkpoint that is asked for, and of the last stable one. -/
def FetchOk (P : Params) (s : CowState) (m : FetchMsg) (ls : Int) : Prop :=
  (0 ≤ m.rc → m.toMe = true → s.clog.withinRange P m.rc = true →
    m.rc % P.ckptInterval = 0 ∨ (s.clog.fetchSeqno = m.rc ∧ s.lc < m.rc + P.ckptInterval)) ∧
  (m.rc < ls → ls % P.ckptInterval = 0 ∧ s.clog.withinRange P ls = true)

theorem chosen_safe {m : FetchMsg} {ls : Int} (hm : FetchOk P t.s m ls) (hu : u.s = t.s) :
    Safe P (chosen P m) u fun n v => v.s = t.s ∧ (n = -1 ∨ n = t.s.lc ∨
      (n = m.rc ∧ t.s.clog.withinRange P m.rc = true ∧ 0 ≤ m.rc ∧ m.toMe = true)) := by
  refine .ite (fun hc => ?_) fun _ => .pure ⟨hu, .inl rfl⟩
  refine .bind (Q := fun b v => v.s = t.s ∧ (b = true → t.s.clog.withinRange P m.rc = true)) ?_
    fun b v _ hv => ?_
  · refine .get_bind (.ite (fun hw => ?_) fun _ => .pure ⟨hu, fun h => by cases h⟩)
    rw [hu] at hw
    have hal : t.s.clog.Allowed P m.rc := ⟨hw, (hm.1 hc.1 hc.2 hw).imp_right And.left⟩
    exact .bind (fetchRec_reads hal u hu) fun _ v _ hv => .pure ⟨hv, fun _ => hw⟩
  · refine .get_bind (.pure ⟨hv.1, ?_⟩)
    cases b with
    | true => exact .inr (.inr ⟨rfl, hv.2 rfl, hc.1, hc.2⟩)
    | false =>
      simp only [Bool.false_eq_true, if_false]
      split
      · exact .inr (.inl (by rw [hv.1]))
      · exact .inl rfl

theorem sendPart_reads {m : FetchMsg} (h : t.s.clog.withinRange P n = true → Scan P t.s n) :
    Reads P t (sendPart P c m n) := by
  unfold sendPart
  exact .ite
    (fun _ => .bind (getMetaData_reads h) fun _ => .bind (getData_reads h) fun _ => .send)
    fun _ => .bind (getMetaData_reads h) fun _ =>
      .bind (.collect fun _ _ => .bind (getMetaData_reads h) fun _ => .pure) fun _ => .send

theorem sendDigests_reads {m : FetchMsg} {ls : Int} (hi : LogInv P t.s)
    (hls : ls % P.ckptInterval = 0) (hw : t.s.clog.withinRange P ls = true) :
    Reads P t (sendDigests P m ls) := by
  have hh := (withinRange_iff.1 hw).1
  refine .bind (fetchRec_reads ⟨hw, .inl hls⟩) fun r =>
    .get_bind fun u hu => .bind (.collect fun n hn => ?_) fun _ => .when fun _ => .send
  refine .bind (getMetaData_reads fun _ => ?_) fun _ => .pure
  split at hn
  · exact (seqnos_scan hi (by rw [Int.add_emod_right]; exact hls) (by omega) hu hn).2
  · exact (seqnos_scan hi hls hh hu hn).2

theorem handleFetch_reads {m : FetchMsg} {ls : Int} (hi : LogInv P t.s) (hm : FetchOk P t.s m ls) :
    Reads P t (handleFetch P c m ls) := by
  refine .when fun _ u hu => .bind (chosen_safe hm hu) fun n v _ hv => .get_bind ?_
  obtain ⟨hv, hn⟩ := hv
  refine .ite (fun hpos => sendPart_reads (fun hw => ?_) v hv)
    fun _ => .when (fun hcl => ?_) fun _ => hv
  · rcases hn with rfl | rfl | ⟨rfl, hw', h0, hme⟩
    · omega
    · exact hi.scan_lc hw
    · rcases hm.1 h0 hme hw with hmult | ⟨hf, hlt⟩
      · exact hi.scan hmult (withinRange_iff.1 hw).1
      · exact scan_last ⟨hw, .inr hf⟩ hlt
  · simp only [Bool.and_eq_true, decide_eq_true_eq] at hcl
    obtain ⟨h1, h2⟩ := hm.2 hcl.1.1
    exact sendDigests_reads hi h1 h2 v hv

/-! ## Fetched partitions -/

/-- The end of a transfer of `n` uses an allowed record. -/
def Fetchable (P : Params) (s : CowState) (n : Int) : Prop :=
  s.clog.head ≤ n ∧ (n % P.ckptInterval = 0 ∨ s.clog.fetchSeqno = n)

/-- The checkpoint that is fetched is not below the window, and is a multiple of the interval or
announced. -/
def RootOk (P : Params) (t : FetchState) : Prop :=
  ∀ wp ∈ t.stalep 0, wp.c ≠ -1 → Fetchable P t.s wp.c

theorem complete_safe {rest : List FPart} (hi : LogInv P t.s) (hn : Fetchable P t.s n) :
    Safe P (complete P n rest) t fun _ u => LogInv P u.s := by
  refine .modify_bind (keep_of_calls rfl)
    (.get_bind (.assert_bind keep_refl fun hle => .ofOption_bind keep_refl fun clog hclog => ?_))
  simp only [decide_eq_true_eq] at hle
  -- the window has `n`, where it had to be moved as its last sequence number
  have hinv : clog.head % P.ckptInterval = 0 ∧ 0 ≤ clog.head ∧
    clog.fetchSeqno = t.s.clog.fetchSeqno ∧ clog.withinRange P n = true := by
    have h0 := hi.nonneg
    split at hclog
    · rename_i hw
      cases hclog
      exact ⟨hi.head, h0, rfl, hw⟩
    · rename_i hw
      obtain ⟨hhead, hmult, hf⟩ := truncate_head hclog
      have hhead : clog.head = max t.s.clog.head (n - P.maxOut) := hhead
      have hout : ¬(t.s.clog.head ≤ n ∧ n ≤ t.s.clog.head + P.maxOut) :=
        fun h => hw (withinRange_iff.2 h)
      have hin := hn.1
      exact ⟨hmult hi.head, by omega, hf, withinRange_iff.2 ⟨by omega, by omega⟩⟩
  obtain ⟨h1, h2, h3, h4⟩ := hinv
  have hal : n % P.ckptInterval = 0 ∨ clog.fetchSeqno = n := by
    rw [h3]
    exact hn.2
  refine .modify_bind (keep_of_calls rfl) (.bind (fetchRec_reads (P := P) (n := n) ⟨h4, hal⟩ _ rfl)
    fun nr u _ hu => ?_)
  refine .modify_bind (keep_of_calls rfl) (.modify (keep_of_calls rfl) ?_)
  have hinv : LogInv P { t.s with clog, lc := n } :=
    ⟨h1, h2, (withinRange_iff.1 h4).2, fun _ => hal⟩
  refine hinv.congr ?_ ?_ ?_
  · change u.s.lc = n
    rw [hu]
  · change u.s.clog.head = clog.head
    rw [hu]
  · change u.s.clog.fetchSeqno = clog.fetchSeqno
    rw [hu]

theorem rootOk_setStale {l : Nat} {ps : List FPart} (ht : RootOk P t)
    (hps : l = 0 → ∀ wp ∈ ps, wp.c ≠ -1 → Fetchable P t.s wp.c) : RootOk P (setStale l ps t) := by
  intro wp hwp hc
  by_cases hl : l = 0
  · subst hl
    exact hps rfl wp (by simpa [setStale] using hwp) hc
  · exact ht wp (by simpa [setStale, Function.update_of_ne (Ne.symm hl)] using hwp) hc

/-- The parent's entry is for the same checkpoint. -/
theorem raiseParent_safe {l i : Nat} {lm : Int} (ht : RootOk P t) :
    Safe P (raiseParent c l i lm) t fun _ u => u.s = t.s ∧ RootOk P u := by
  refine .get_bind (.when (fun _ => ?_) fun _ => ⟨rfl, ht⟩)
  split
  · exact .stop keep_refl
  · rename_i q qs hq
    refine .assert_bind keep_refl fun _ =>
      .modify (keep_of_calls rfl) ⟨rfl, rootOk_setStale ht fun hl wp hwp hc => ?_⟩
    rcases List.mem_cons.1 hwp with rfl | hwp
    · exact ht q (by rw [← hl, hq]; simp) hc
    · exact ht wp (by rw [← hl, hq]; simp [hwp]) hc

theorem sendFetch_safe {f : FetchState → FetchState} (hf : (f t).calls = t.calls)
    (hs : (f t).s = t.s) (hi : LogInv P t.s) :
    Safe P (modify f >>= fun _ => sendFetch P) t fun _ u => LogInv P u.s :=
  .modify_bind (keep_of_calls hf) (.mono (sendFetch_reads hi _ hs) fun _ _ hu => hu ▸ hi)

theorem doneWithLevel_safe : ∀ {l : Nat} {t : FetchState}, LogInv P t.s → RootOk P t →
    Safe P (doneWithLevel P c l) t fun _ u => LogInv P u.s
  | 0, _, _, _ => .stop keep_refl
  | l + 1, t, hi, ht => by
    refine .get_bind (.assert_bind keep_refl fun _ => ?_)
    split
    · exact .stop keep_refl
    rename_i wp rest hwp
    have hroot : l = 0 → ∀ p ∈ wp :: rest, p.c ≠ -1 → Fetchable P t.s p.c := fun hl p hp hc => by
      refine ht p ?_ hc
      rw [← hl, hwp]
      exact hp
    have ht' : RootOk P (setStale l ({ wp with lu := wp.c } :: rest) t) :=
      rootOk_setStale ht fun hl p hp hc => by
      rcases List.mem_cons.1 hp with rfl | hp
      · exact hroot hl wp (by simp) hc
      · exact hroot hl p (by simp [hp]) hc
    refine .modify_bind (keep_of_calls rfl) (.assert_bind keep_refl
      fun hc => .ite (fun _ => ?_) fun _ => sendFetch_safe rfl rfl hi)
    refine .modify_bind (keep_of_calls rfl) (.bind (raiseParent_safe (P := P) ?_)
      fun _ u _ hu => ?_)
    · exact ht'
    obtain ⟨hs, hu⟩ := hu
    have hiu : LogInv P u.s := hs ▸ hi.congr rfl rfl rfl
    refine .ite (fun hl => complete_safe hiu ?_) fun hl => .modify_bind (keep_of_calls rfl) ?_
    · rw [hs]
      exact hroot hl wp (by simp) (by simpa using hc)
    · exact .ite (fun _ => doneWithLevel_safe hiu (rootOk_setStale hu fun h => absurd h hl))
        fun _ => sendFetch_safe rfl rfl hiu

theorem next_safe {l : Nat} {rest : List FPart} (hi : LogInv P t.s) (ht : RootOk P t) :
    Safe P (next P c l rest) t fun _ u => LogInv P u.s :=
  .ite (fun _ => doneWithLevel_safe hi ht) fun _ => .mono (sendFetch_reads hi t rfl)
    fun _ _ hu => hu ▸ hi

theorem handleData_safe {i : Nat} {lm : Int} {b : Block} (hi : LogInv P t.s) (ht : RootOk P t) :
    Safe P (handleData P c i lm b) t fun _ u => LogInv P u.s := by
  refine .get_bind (.when (fun _ => ?_) fun _ => hi)
  split
  · exact .stop keep_refl
  rename_i wp rest hwp
  refine .when (fun _ => .ite (fun _ => ?_) fun _ =>
    .mono (sendFetch_reads hi t rfl) fun _ _ hu => hu ▸ hi) fun _ => hi
  refine .modify_bind (keep_of_calls rfl) (.bind (raiseParent_safe (P := P) ?_)
    fun _ u _ hu => .modify_bind (keep_of_calls rfl) ?_)
  · exact ht
  obtain ⟨hs, hu⟩ := hu
  have hiu : LogInv P u.s := hs ▸ hi.congr rfl rfl rfl
  refine next_safe hiu (rootOk_setStale hu fun hl p hp hc => ?_)
  rw [hs]
  exact ht p (by rw [← hl, hwp]; simp [hp]) hc

theorem handleMetaData_safe {m : MetaDataMsg} (hi : LogInv P t.s) (ht : RootOk P t) :
    Safe P (handleMetaData P c m) t fun _ u => LogInv P u.s := by
  refine .get_bind (.when (fun _ => ?_) fun _ => hi)
  split
  · exact .stop keep_refl
  rename_i wp rest hwp
  refine .when (fun _ => .assert_bind keep_refl
    fun _ => .modify_bind (keep_of_calls rfl) (next_safe ?_ ?_)) fun _ => hi
  · exact hi
  · have hset : RootOk P (setStale t.flevel ({ wp with lm := m.lm } :: rest) t) :=
      rootOk_setStale ht fun hl p hp hc => by
      rcases List.mem_cons.1 hp with rfl | hp
      · exact ht wp (by rw [← hl, hwp]; simp) hc
      · exact ht p (by rw [← hl, hwp]; simp [hp]) hc
    have hnext : RootOk P (setStale (t.flevel + 1) (staleParts c t.s.tree wp m) _) :=
      rootOk_setStale hset fun hl => absurd hl (Nat.succ_ne_zero _)
    exact hnext

theorem handleMetaDataD_safe {m : MetaDataDMsg} (hi : LogInv P t.s) (ht : RootOk P t)
    (hm : t.flevel = 0 → ∀ cc cd, m.value = some (cc, cd) → cc ≠ -1 → Fetchable P t.s cc) :
    Safe P (handleMetaDataD P c m) t fun _ u => LogInv P u.s := by
  refine .get_bind (.when (fun _ => ?_) fun _ => hi)
  split
  · exact .stop keep_refl
  rename_i wp rest hwp
  refine .when (fun _ => ?_) fun _ => hi
  split
  · exact .pure hi
  rename_i cc cd hv
  have htail : t.flevel = 0 → ∀ p ∈ rest, p.c ≠ -1 → Fetchable P t.s p.c := fun hl p hp hc =>
    ht p (by rw [← hl, hwp]; simp [hp]) hc
  have ht' : RootOk P (setStale t.flevel ({ wp with c := cc, d := cd } :: rest) t) :=
    rootOk_setStale ht fun hl p hp hc => by
    rcases List.mem_cons.1 hp with rfl | hp
    · exact hm hl cc cd hv hc
    · exact htail hl p hp hc
  refine .modify_bind (keep_of_calls rfl) (.assert_bind keep_refl
    fun _ => .ite (fun _ => .ite (fun _ => ?_) fun _ => ?_) fun _ => ?_)
  · refine .modify_bind (keep_of_calls rfl) (.when (fun _ => doneWithLevel_safe ?_ ?_) fun _ => ?_)
    · exact hi
    · exact rootOk_setStale (P := P) ht' fun hl => htail hl
    · exact hi
  · refine .modify_bind (keep_of_calls rfl) (doneWithLevel_safe ?_ ?_)
    · exact hi
    · exact ht'
  · exact .mono (sendFetch_reads hi _ rfl) fun _ _ hu => hu ▸ hi

/-! ## Runs -/

/-- The steps that keep to the records that the static log has. -/
def Respects (P : Params) (t : FetchState) : FetchOp → Prop
  | .write _ _ | .rollback | .sendFetch => True
  | .checkpoint n => t.s.clog.Allowed P t.s.lc ∧ t.s.clog.Allowed P n
  | .digest n => t.s.clog.withinRange P n = true → t.s.clog.Allowed P n
  | .discard seqno le =>
    t.s.lc < seqno → t.s.lc < le → 0 ≤ t.s.lc → t.s.clog.Allowed P t.s.lc ∧ t.s.clog.Allowed P le
  | .startFetch le _ _ | .startCheck le _ => t.fetching = false → 0 ≤ t.s.lc → t.s.lc < le →
      t.s.clog.withinRange P t.s.lc = true ∧ t.s.lc % P.ckptInterval = 0 ∧
        t.s.clog.withinRange P le = true
  | .fetch m ls => FetchOk P t.s m ls
  | .data _ _ _ | .metaData _ => RootOk P t
  | .metaDataD m => RootOk P t ∧
      (t.flevel = 0 → ∀ cc cd, m.value = some (cc, cd) → cc ≠ -1 → Fetchable P t.s cc)

theorem onCow_safe {f : CowState → Option CowState} (hi : LogInv P t.s)
    (hf : ∀ s, f t.s = some s → s.lc = t.s.lc ∧ s.clog.head = t.s.clog.head ∧
      s.clog.fetchSeqno = t.s.clog.fetchSeqno) :
    Safe P (onCow f) t fun _ u => LogInv P u.s :=
  .get_bind (.ofOption_bind keep_refl fun s hs => .modify (keep_of_calls rfl)
    (hi.congr (hf s hs).1 (hf s hs).2.1 (hf s hs).2.2))

theorem write_log {s s' : CowState} {d : Declare} {bytes : List (Nat × UInt8)}
    (h : s.write P c d bytes = some s') :
    s'.lc = s.lc ∧ s'.clog.head = s.clog.head ∧ s'.clog.fetchSeqno = s.clog.fetchSeqno := by
  simp only [CowState.write, Option.bind_eq_bind, Option.bind_eq_some_iff, Option.some.injEq] at h
  obtain ⟨w, hw, rfl⟩ := h
  have hlog := CowState.declare_induct
    (I := fun v => v.lc = s.lc ∧ v.clog.head = s.clog.head ∧ v.clog.fetchSeqno = s.clog.fetchSeqno)
    (fun v v' i hv _ h => by
      obtain ⟨-, _, _, -, -, rfl⟩ := CowState.cowSingle_spec h
      exact hv) ⟨rfl, rfl, rfl⟩ hw
  exact hlog

theorem rollback_log {s s' : CowState} (h : s.rollback P c = some s') :
    s'.lc = s.lc ∧ s'.clog.head = s.clog.head ∧ s'.clog.fetchSeqno = s.clog.fetchSeqno := by
  unfold CowState.rollback at h
  split at h
  · cases h
  · simp only [Option.bind_eq_bind, Option.bind_eq_some_iff, Option.some.injEq] at h
    obtain ⟨r, -, mem, -, rfl⟩ := h
    exact ⟨rfl, rfl, rfl⟩

/-- **One operation.** It makes allowed calls only, and keeps the invariant. -/
theorem perform_safe {op : FetchOp} (hi : LogInv P t.s) (hop : Respects P t op) :
    Safe P (perform P c op) t fun _ u => LogInv P u.s := by
  have of_reads : ∀ {x : Prog FetchState Unit}, Reads P t x →
    Safe P x t fun _ u => LogInv P u.s := fun hx =>
    .mono (hx t rfl) fun _ _ hu => hu ▸ hi
  cases op with
  | write d bytes =>
    exact onCow_safe (f := fun s => s.write P c d bytes) hi fun s hs => write_log hs
  | checkpoint n =>
    refine .mono (checkpoint_safe hop.1 hop.2) fun _ u hu => ?_
    obtain ⟨hlc, hhead, hf⟩ := hu
    have hw := withinRange_iff.1 hop.2.1
    refine ⟨by rw [hhead]; exact hi.head, by rw [hhead]; exact hi.nonneg, by rw [hhead]; omega,
      fun _ => ?_⟩
    rw [hlc, hf]
    exact hop.2.2
  | rollback =>
    exact .get_bind (.assert_bind keep_refl fun _ => onCow_safe hi fun _ hs => rollback_log hs)
  | digest n => exact of_reads (.bind (digest_reads hop) fun _ => .pure)
  | discard seqno le => exact discard_safe hi hop
  | startFetch le rc d => exact startFetch_safe hi hop
  | startCheck le d => exact .modify_bind (keep_of_calls rfl) (startFetch_safe (P := P) hi hop)
  | sendFetch => exact of_reads (sendFetch_reads hi)
  | fetch m ls => exact of_reads (handleFetch_reads hi hop)
  | data i lm b => exact handleData_safe hi hop
  | metaData m => exact handleMetaData_safe hi hop
  | metaDataD m => exact handleMetaDataD_safe hi hop.1 hop.2

theorem perform_calls {op : FetchOp} (hi : LogInv P t.s) (ht : AllowedCalls P t)
    (hop : Respects P t op) :
    AllowedCalls P (perform P c op t).2 := by
  obtain ⟨h1, h2⟩ :=
    Reaches.invariant (I := AllowedCalls P) (J := AllowedCalls P) (fun _ _ h hk => hk h)
    (fun _ _ h hk => hk h) (perform_safe (c := c) hi hop) ht
  cases hr : (perform P c op t).1 with
  | none => exact h2 hr
  | some a => exact h1 a hr

/-- A step is an operation that returns. -/
theorem perform_of_step {op : FetchOp} (h : step P c t op = some u) :
    (∀ Q : FetchState → Prop, (Safe P (perform P c op) t fun _ v => Q v) → Q u) ∧
      (perform P c op t).2 = u := by
  unfold step at h
  cases hx : perform P c op t with
  | mk o w =>
    rw [hx] at h
    cases o with
    | none => cases h
    | some a =>
      cases h
      refine ⟨fun Q hsafe => ?_, rfl⟩
      unfold Safe Reaches at hsafe
      rw [hx] at hsafe
      exact hsafe.2

theorem run_logInv {mem : Nat → UInt8} {ops : List FetchOp}
    (hv : Run.Meets (step P c) (Respects P) (start P c mem) ops)
    (hr : Run.run (step P c) (start P c mem) ops = some t) : LogInv P t.s ∧ AllowedCalls P t := by
  have hstart : LogInv P (start P c mem).s ∧ AllowedCalls P (start P c mem) := by
    refine ⟨⟨Int.zero_emod _, le_rfl,
      ?_, fun _ => .inl (Int.zero_emod _)⟩, by simp [AllowedCalls, start]⟩
    simp [start, CowState.start, CheckpointRecordLog.set, new]
  refine Run.invariant (I := fun t => LogInv P t.s ∧ AllowedCalls P t)
    (fun t op u hi hop hs => ?_) hstart hv hr
  obtain ⟨hval, hu⟩ := perform_of_step hs
  have hcalls := perform_calls (c := c) hi.1 hi.2 hop
  rw [hu] at hcalls
  exact ⟨hval (fun v => LogInv P v.s) (perform_safe hi.1 hop), hcalls⟩

/-- **Fetches respect the static log.** In a run whose steps keep to the records that the log has,
every call of `fetch`, in those steps and in the next one, has a sequence number in the window that
is a multiple of the interval or the announced one; and no two such numbers share a record. -/
theorem fetches_allowed {mem : Nat → UInt8} {ops : List FetchOp} {op : FetchOp}
    (hv : Run.Meets (step P c) (Respects P) (start P c mem) ops)
    (hr : Run.run (step P c) (start P c mem) ops = some t) (hop : Respects P t op) :
    (∀ call ∈ (perform P c op t).2.calls, call.1.Allowed P call.2) ∧
    ∀ n m, t.s.clog.Allowed P n → t.s.clog.Allowed P m →
      t.s.clog.recordIndex P n = t.s.clog.recordIndex P m → n = m := by
  obtain ⟨hi, hcalls⟩ := run_logInv hv hr
  exact ⟨perform_calls hi hcalls hop, fun n m hn hm h => allowed_inj hi.head hn hm h⟩

/-- A request for block 0 of a checkpoint. -/
def fetchBlock (rc : Int) : FetchMsg := ⟨1, 0, 0, rc, true, true⟩

theorem fetches_allowed_twoBlocks : ∃ t, Run.run (step Params.default CowState.twoBlocks)
    (start Params.default CowState.twoBlocks fun _ => 0) [.checkpoint 128] = some t ∧
    ∀ call ∈ (perform Params.default CowState.twoBlocks (.fetch (fetchBlock 128) 0) t).2.calls,
      call.1.Allowed Params.default call.2 := by
  have hv : Run.Meets (step Params.default CowState.twoBlocks) (Respects Params.default)
      (start Params.default CowState.twoBlocks fun _ => 0) [.checkpoint 128] :=
    ⟨⟨by decide +kernel, by decide +kernel⟩, fun _ _ => trivial⟩
  obtain ⟨t, hr, hop⟩ : ∃ t, Run.run (step Params.default CowState.twoBlocks)
      (start Params.default CowState.twoBlocks fun _ => 0) [.checkpoint 128] = some t ∧
      Respects Params.default t (.fetch (fetchBlock 128) 0) :=
    ⟨_, rfl, fun _ _ _ => .inl (by decide), fun h => absurd h (by decide)⟩
  exact ⟨t, hr, (fetches_allowed hv hr hop).1⟩

/-- Checkpoint 128 becomes stable at a replica that has executed up to 100: `discard_checkpoint`
looks up the record of 100, which was not announced. And a request for checkpoint 5 makes the
replica look up the record of 5. -/
theorem fetch_unannounced :
    (∃ call ∈ (perform Params.default CowState.twoBlocks (.discard 128 100)
        (start Params.default CowState.twoBlocks fun _ => 0)).2.calls,
          ¬call.1.Allowed Params.default call.2) ∧
    ∃ call ∈ (perform Params.default CowState.twoBlocks (.fetch (fetchBlock 5) 0)
        (start Params.default CowState.twoBlocks fun _ => 0)).2.calls,
          ¬call.1.Allowed Params.default call.2 := by
  refine ⟨⟨_, List.mem_cons_self, ?_⟩, _, List.mem_cons_self, ?_⟩
  · decide +kernel
  · decide +kernel

end FetchState

end TinyBFT
