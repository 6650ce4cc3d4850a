import TinyBFT.PreparedCert

/-!
# What a certificate counts, and when it has counted enough

`Counts` is about the messages behind a certificate, and `AllVals` about the values in it. A
certificate that is complete stays so, whatever is added to it: it counts for its correct value only
up to `complete` (`Certificate.t:50`), and `mark_stale` leaves it alone (`Certificate.t:190`,
`Prepared_cert.h:179-189`).

| here | there |
| --- | --- |
| `Counts`  | the messages that have passed `add` or `add_mine` since the certificate was cleared |
| `Lasting` | `is_complete` (`Prepared_cert.h:162-164`) does not become false |
-/

namespace TinyBFT

namespace Certificate

variable {T : Type} [CertMsg T] {E : Env} {cert cert' : Certificate T} {m : T}
    {P : T → Prop} {b : Bool}

/-! ## The messages behind a certificate -/

/-- The certificate counts messages that `P` holds of, and `k` of them at least make it complete. -/
def Counts (E : Env) (P : T → Prop) (k : Nat) (cert : Certificate T) : Prop :=
  ∃ L : List T, Inv E ⟨cert, L⟩ ∧ k ≤ cert.complete ∧ ∀ m ∈ L, P m

section Counts

variable {k : Nat} {Q : T → Prop}

theorem Counts.mono (h : Counts E P k cert) (hPQ : ∀ m, P m → Q m) : Counts E Q k cert := by
  obtain ⟨L, h1, h2, h3⟩ := h
  exact ⟨L, h1, h2, fun m hm => hPQ m (h3 m hm)⟩

theorem counts_new {comp : Nat} (hk : k ≤ if comp = 0 then 2 * E.f + 1 else comp) :
    Counts E P k (new E comp) :=
  ⟨[], new_inv comp, hk, fun _ hm => (List.not_mem_nil hm).elim⟩

theorem Counts.clear (h : Counts E P k cert) : Counts E Q k cert.clear := by
  obtain ⟨L, h1, h2, -⟩ := h
  exact ⟨[], inv_nil h1.complete_pos [], h2, fun _ hm => (List.not_mem_nil hm).elim⟩

theorem Counts.complete_pos (h : Counts E P k cert) : 0 < cert.complete := by
  obtain ⟨L, h1, -, -⟩ := h
  exact h1.complete_pos

/-- The own message is one of them. -/
theorem Counts.mine (h : Counts E P k cert) (hm : cert.mym = some m) :
    P m ∧ CertMsg.id m = E.id := by
  obtain ⟨L, h1, -, h3⟩ := h
  obtain ⟨hmem, hid, -⟩ := h1.mym m hm
  exact ⟨h3 m hmem, hid⟩

/-- **A complete certificate** counts messages of distinct replicas that match its correct value. -/
theorem Counts.quorum (h : Counts E P k cert) (hc : cert.isComplete = true) {cv : T}
    (hcv : cert.cvalue = some cv) :
    ∃ L : List T, (L.map CertMsg.id).Nodup ∧ k ≤ L.length ∧ 0 < L.length ∧ ∀ m ∈ L,
      P m ∧ Matches cv m := by
  obtain ⟨L, h1, h2, h3⟩ := h
  have hle : cert.complete ≤ cert.numCorrect := by simpa [isComplete] using hc
  have hcount : cert.complete ≤ (L.filter fun m => Matches cv m).length := by
    refine hle.trans ((h1.correct_count hcv).1.trans ?_)
    rw [supporters, List.length_map]
  refine ⟨L.filter fun m => Matches cv m, ?_, h2.trans hcount,
    lt_of_lt_of_le h1.complete_pos hcount, fun m hm => ?_⟩
  · exact h1.ledger.nodup.sublist (List.filter_sublist.map _)
  · obtain ⟨hmem, hmatch⟩ := List.mem_filter.1 hm
    exact ⟨h3 m hmem, of_decide_eq_true hmatch⟩

variable [LawfulCertMsg T]

theorem Counts.markStale [DecidableEq T] (h : Counts E P k cert)
    (hc : cert.markStale = some cert') : Counts E P k cert' := by
  obtain ⟨L, h1, h2, h3⟩ := h
  refine ⟨_, inv_markStale h1 hc, ?_, fun m hm => h3 m ?_⟩
  · rcases markStale_cases hc with ⟨-, rfl⟩ | ⟨-, ⟨m, -, rfl⟩ | ⟨-, rfl⟩⟩ <;> exact h2
  · dsimp only at hm
    split at hm
    · exact hm
    · exact (List.mem_filter.1 hm).1

/-- The message of another replica. -/
theorem Counts.add {verify : Bool} (h : Counts E P k cert)
    (hc : cert.add E m verify = some (cert', b))
    (hm : verify = true → CertMsg.id m < E.n → CertMsg.id m ≠ E.id → P m) : Counts E P k cert' := by
  obtain ⟨L, h1, h2, h3⟩ := h
  refine ⟨_, inv_add h1 hc, ?_, fun x hx => ?_⟩
  · rcases add_cases hc with ⟨-, -, -, -, -, ⟨_, _, _, -, -, rfl, -⟩ | ⟨-, rfl⟩⟩ | ⟨-,
      rfl | rfl | rfl⟩ <;> exact h2
  · rcases add_cases hc with ⟨rfl, hv, hlt, hne, -⟩ | ⟨rfl, -⟩
    · rcases List.mem_cons.1 hx with rfl | hx
      · exact hm hv hlt hne
      · exact h3 x hx
    · simp only [Bool.false_eq_true, if_false] at hx
      split at hx
      · exact (List.not_mem_nil hx).elim
      · exact h3 x hx

/-- The own message. -/
theorem Counts.addMine (h : Counts E P k cert) (hc : cert.addMine E m = some (cert', b))
    (hmine : cert.mym = none) (hm : P m) :
    Counts E P k cert' := by
  obtain ⟨L, h1, h2, h3⟩ := h
  refine ⟨_, inv_addMine h1 hmine hc, ?_, fun x hx => ?_⟩
  · obtain ⟨-, -, ⟨-, _, -, ⟨_, _, -, -, -, rfl⟩ | ⟨-, rfl⟩⟩ | ⟨-, rfl⟩⟩ :=
      addMine_cases hc <;> exact h2
  · cases b with
    | false => exact h3 x hx
    | true =>
      rcases List.mem_cons.1 (show x ∈ m :: L from hx) with rfl | hx
      · exact hm
      · exact h3 x hx

end Counts

/-! ## The values of a certificate -/

/-- All values of the certificate. -/
def AllVals (P : T → Prop) (cert : Certificate T) : Prop := ∀ x ∈ cert.vals, P x.m

omit [CertMsg T] in
theorem AllVals.cvalue (h : AllVals P cert) {cv : T} (hcv : cert.cvalue = some cv) : P cv := by
  obtain ⟨x, hx, rfl⟩ := Option.map_eq_some_iff.1 hcv
  obtain ⟨k, -, hk⟩ := Option.bind_eq_some_iff.1 hx
  exact h x (List.mem_of_getElem? hk)

omit [CertMsg T] in
theorem allVals_clear (cert : Certificate T) : AllVals P cert.clear :=
  fun _ hx => (List.not_mem_nil hx).elim

theorem AllVals.add {verify : Bool} (h : AllVals P cert) (hm : P m)
    (ha : cert.add E m verify = some (cert', b)) : AllVals P cert' := by
  obtain ⟨-, -, -, -, -, ⟨i, v, c, hv, -, rfl, -⟩ | ⟨-, rfl⟩⟩ | ⟨-, rfl | rfl | rfl⟩ := add_cases ha
  · intro x hx
    rcases List.mem_or_eq_of_mem_set hx with hx | rfl
    · exact h x hx
    · dsimp only [MessageVal.absorb]
      split
      · exact hm
      · exact h v (List.mem_of_getElem? hv)
  · intro x hx
    rcases List.mem_append.1 hx with hx | hx
    · exact h x hx
    · rw [List.mem_singleton.1 hx]
      exact hm
  · exact h
  · exact h
  · exact allVals_clear cert

theorem AllVals.addMine (h : AllVals P cert) (hm : P m) (ha : cert.addMine E m = some (cert', b)) :
    AllVals P cert' := by
  obtain ⟨-, -, ⟨-, bmap, -, ⟨i, v, -, -, -, rfl⟩ | ⟨-, rfl⟩⟩ | ⟨-, rfl⟩⟩ := addMine_cases ha
  · intro x hx
    rcases List.mem_or_eq_of_mem_set hx with hx | rfl
    · exact h x hx
    · exact hm
  · intro x hx
    rcases List.mem_cons.1 hx with rfl | hx
    · exact hm
    · exact h x (List.mem_of_mem_tail hx)
  · exact h

omit [CertMsg T] in
theorem AllVals.markStale [DecidableEq T] (h : AllVals P cert) (ha : cert.markStale = some cert') :
    AllVals P cert' := by
  unfold Certificate.markStale at ha
  split at ha
  · cases ha
    exact h
  split at ha
  · split at ha
    · cases ha
      rename_i hcv
      intro x hx
      rw [List.mem_singleton.1 hx]
      exact h.cvalue hcv
    · cases ha
  · cases ha
    exact fun _ hx => (List.not_mem_nil hx).elim

omit [CertMsg T] in
/-- The correct value of a complete certificate, and its count. -/
theorem isComplete_cases (hpos : 0 < cert.complete) (h : cert.isComplete = true) :
    ∃ k v, cert.c = some k ∧ cert.vals[k]? = some v ∧ cert.complete ≤ v.count := by
  have hle : cert.complete ≤ cert.numCorrect := by simpa [isComplete] using h
  cases hcv : cert.cval with
  | none =>
    simp only [numCorrect, hcv, Option.map_none, Option.getD_none] at hle
    omega
  | some v =>
    obtain ⟨k, hk, hv⟩ := Option.bind_eq_some_iff.1 hcv
    refine ⟨k, v, hk, hv, ?_⟩
    simpa [numCorrect, hcv] using hle

/-- A complete certificate counts no more. -/
theorem add_complete {verify : Bool} (hpos : 0 < cert.complete) (h : cert.isComplete = true)
    (ha : cert.add E m verify = some (cert', b)) :
    b = false ∧ cert'.cval = cert.cval ∧ cert'.complete = cert.complete := by
  obtain ⟨k, v, hk, hv, hle⟩ := isComplete_cases hpos h
  have hrefused : ∀ {r : Certificate T × Bool}, some
    (if verify then { cert with bmap := CertMsg.id m :: cert.bmap } else cert, false) = some r →
      r.2 = false ∧ r.1.cval = cert.cval ∧ r.1.complete = cert.complete := by
    intro r hr
    cases verify <;> cases hr <;> exact ⟨rfl, rfl, rfl⟩
  unfold Certificate.add at ha
  dsimp only at ha
  split at ha
  · cases ha
    exact ⟨rfl, rfl, rfl⟩
  rw [hk] at ha
  simp only [Option.bind_eq_bind, Option.bind_eq_some_iff] at ha
  obtain ⟨w, hw, cnt, hcnt, ha⟩ := ha
  rw [hv] at hw
  cases hw
  rw [countsFor, if_neg (by omega)] at hcnt
  cases hcnt
  rw [Bool.false_and, if_neg (by decide), ← hk] at ha
  exact hrefused ha

end Certificate

namespace PreparedCert

variable {E : Env} {c c' : PreparedCert} {m : PrePrepareMsg} {p : Prepare} {b : Bool}

/-- What is complete stays so. -/
def Lasting (c c' : PreparedCert) : Prop := c.isComplete = some true → c'.isComplete = some true

theorem isComplete_iff : c.isComplete = some true ↔ ∃ m,
    c.pp = some m ∧ c.pc.isComplete = true ∧ c.matchCvalue m = some true := by
  unfold isComplete
  cases hpp : c.pp with
  | none => simp
  | some m =>
    dsimp only
    split
    · simp [*]
    · simp [*]

theorem not_complete_of_pp (h : c.pp = none) : c.isComplete ≠ some true := by
  intro hc
  obtain ⟨m, hm, -⟩ := isComplete_iff.1 hc
  rw [h] at hm
  cases hm

/-- A complete certificate has a correct value, which its pre-prepare matches. -/
theorem isComplete_correct (h : c.isComplete = some true) :
    ∃ m cv, c.pp = some m ∧ c.pc.isComplete = true ∧ c.pc.cvalue = some cv ∧
      m.matchPrepare cv = some true := by
  obtain ⟨m, hm, hc, hmatch⟩ := isComplete_iff.1 h
  obtain ⟨cv, hcv, hmatch⟩ := Option.bind_eq_some_iff.1 hmatch
  exact ⟨m, cv, hm, hc, hcv, hmatch⟩

theorem addPrePrepare_lasting {nrc reqsOk : Bool}
    (h : c.addPrePrepare E m nrc reqsOk = some (c', b)) : Lasting c c' := by
  rcases addPrePrepare_cases h with ⟨-, rfl⟩ | ⟨-, hpp, -⟩
  · exact fun hc => hc
  · exact fun hc => absurd hc (not_complete_of_pp hpp)

theorem addMinePrePrepare_lasting (h : c.addMinePrePrepare E m = some c') : Lasting c c' := by
  unfold addMinePrePrepare at h
  split at h
  · rename_i hpp
    exact fun hc => absurd hc (not_complete_of_pp hpp.2)
  · cases h

theorem addOld_lasting (h : c.addOld m = some c') : Lasting c c' := by
  unfold addOld at h
  split at h
  · rename_i hpp
    exact fun hc => absurd hc (not_complete_of_pp hpp)
  · cases h

theorem markStale_lasting {isPrimary : Bool} (h : c.markStale isPrimary = some c') :
    Lasting c c' := by
  intro hc
  rcases markStale_cases h with ⟨-, rfl⟩ | ⟨hno, -⟩
  · exact hc
  · rw [hc] at hno
    cases hno

theorem addMinePrePrepare_pc (h : c.addMinePrePrepare E m = some c') : c'.pc = c.pc := by
  unfold addMinePrePrepare at h
  split at h <;> cases h
  rfl

theorem addOld_pc (h : c.addOld m = some c') : c'.pc = c.pc := by
  unfold addOld at h
  split at h <;> cases h
  rfl

theorem markStale_vals {isPrimary : Bool} {P : Prepare → Prop} (h : c.markStale isPrimary = some c')
    (hp : Certificate.AllVals P c.pc) :
    Certificate.AllVals P c'.pc := by
  rcases markStale_cases h with ⟨-, rfl⟩ | ⟨-, pc, hpc, rfl⟩
  · exact hp
  · exact hp.markStale hpc

theorem add_vals {verify : Bool} {P : Prepare → Prop} (h : c.add E p verify = some (c', b))
    (hp : Certificate.AllVals P c.pc) (hm : P p) :
    Certificate.AllVals P c'.pc := by
  obtain ⟨pc, hpc, rfl⟩ := add_cases h
  exact hp.add hm hpc

theorem addMine_vals {P : Prepare → Prop} (h : c.addMine E p = some (c', b))
    (hp : Certificate.AllVals P c.pc) (hm : P p) :
    Certificate.AllVals P c'.pc := by
  obtain ⟨-, pc, hpc, rfl⟩ := addMine_cases h
  exact hp.addMine hm hpc

/-- The correct value stays, and matches as before. -/
theorem lasting_of_cvalue {pc : Certificate Prepare} {cv : Prepare} (hcv : c.pc.cvalue = some cv)
    (hcv' : pc.cvalue = some p) (hp : Certificate.Matches cv p)
    (hc : c.pc.isComplete = true → pc.isComplete = true) : Lasting c { c with pc := pc } := by
  intro h
  obtain ⟨m, cv', hm, hcomp, hcv'', hmatch⟩ := isComplete_correct h
  rw [hcv] at hcv''
  cases hcv''
  refine isComplete_iff.2 ⟨m, hm, hc hcomp, ?_⟩
  obtain ⟨hv, hn, hd⟩ := Certificate.matches_prepare.1 hp
  simp only [matchCvalue, hcv', Option.bind_eq_bind, Option.bind_some]
  unfold PrePrepareMsg.matchPrepare at hmatch ⊢
  rw [← hv, ← hn, ← hd]
  exact hmatch

/-- A complete certificate counts no prepare of another backup any more. -/
theorem add_lasting {verify : Bool} (hpos : 0 < c.pc.complete)
    (h : c.add E p verify = some (c', b)) :
    Lasting c c' ∧ (c.isComplete = some true → b = false) := by
  obtain ⟨pc, hpc, rfl⟩ := add_cases h
  have hboth : c.isComplete = some true → b = false ∧
    isComplete { c with pc := pc } = some true := by
    intro hc
    obtain ⟨m, cv, -, hcomp, hcv, -⟩ := isComplete_correct hc
    obtain ⟨hb, hcval, hcomplete⟩ := Certificate.add_complete hpos hcomp hpc
    refine ⟨hb, lasting_of_cvalue hcv (p := cv) ?_ (LawfulCertMsg.refl cv) (fun _ => ?_) hc⟩
    · rw [Certificate.cvalue, hcval]
      exact hcv
    · rw [Certificate.isComplete, Certificate.numCorrect, hcval, hcomplete]
      exact hcomp
  exact ⟨fun hc => (hboth hc).2, fun hc => (hboth hc).1⟩

/-- The own prepare is counted for the correct value, or is refused. -/
theorem addMine_lasting (hpos : 0 < c.pc.complete) (h : c.addMine E p = some (c', b)) :
    Lasting c c' := by
  obtain ⟨-, pc, hpc, rfl⟩ := addMine_cases h
  intro hc
  obtain ⟨m, cv, -, hcomp, hcv, -⟩ := isComplete_correct hc
  obtain ⟨k, v, hk, hv, hle⟩ := Certificate.isComplete_cases hpos hcomp
  rw [Certificate.cvalue_of_getElem hk hv] at hcv
  cases hcv
  obtain ⟨-, -, ⟨-, bmap, -, ⟨i, v', hv', hmatch, hi, rfl⟩ | ⟨hnone, -⟩⟩ | ⟨-, rfl⟩⟩ :=
    Certificate.addMine_cases hpc
  · have hik : k = i := by
      rcases hi with hi | hi
      · rw [hk] at hi
        cases hi
      · rw [hk] at hi
        exact Option.some.inj hi
    subst hik
    rw [hv] at hv'
    cases hv'
    have hlt : k < c.pc.vals.length := (List.getElem?_eq_some_iff.1 hv).1
    refine lasting_of_cvalue (Certificate.cvalue_of_getElem hk hv)
      (p := p) ?_ (.inl hmatch) (fun _ => ?_) hc
    · simp only [Certificate.cvalue, Certificate.cval, Option.bind_some,
        List.getElem?_set_self hlt, Option.map_some]
    · simp only [Certificate.isComplete, Certificate.numCorrect,
        Certificate.cval, Option.bind_some, List.getElem?_set_self hlt, Option.map_some,
        Option.getD_some, decide_eq_true_eq]
      omega
  · rw [hk] at hnone
    cases hnone
  · exact hc

end PreparedCert

end TinyBFT
