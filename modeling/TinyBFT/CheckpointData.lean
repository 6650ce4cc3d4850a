import TinyBFT.Checkpointing

/-!
# Old checkpoints are read back as they were (`State.cc:752-936`)

The copies that lie in the records, the memory and the stamps determine every retained checkpoint.
`Faithful` says how, for one partition and one checkpoint `σ`: a partition that was not stamped
since `σ` is still as it was, and no record from `σ` on has a copy of it, but the last one where the
block was modified after the last checkpoint; of a partition that was stamped later the first copy
from `σ` on, in a record before the last one, is the old one.

A record counts as empty in `get_data` if the first word of its state digest is zero, so the results
are for runs whose checkpoints have other digests (`Keeps`).
-/

namespace TinyBFT

open RecordOp

variable {P : Params} {c : TreeCfg}

/-- A record without entries has none. -/
def CheckpointRecord.NumOk (r : CheckpointRecord) : Prop := r.numEntries = 0 → ∀ k, r.fetch k = none

namespace CheckpointRecord

variable {r r' : CheckpointRecord} {k q : PartKey} {p : Part}

theorem fetch_clear (h : r.NumOk) (k : PartKey) : r.clear.fetch k = none := by
  unfold clear
  split
  · exact h ‹_› k
  · simp [fetch]

theorem numOk_clear (h : r.NumOk) : r.clear.NumOk := fun _ => fetch_clear h

theorem append_spec (h : r.append k p = some r') : r.fetch k = none ∧ r' = r.store k p := by
  unfold append at h
  split at h
  · rename_i hfree
    cases h
    exact ⟨by simp [fetch, hfree], rfl⟩
  · cases h

theorem fetch_store_self (hp : p.lm ≠ -1) :
    (r.store k p).fetch k = some p := by simp [fetch, store, hp]

theorem fetch_store_ne (h : q ≠ k) : (r.store k p).fetch q = r.fetch q := by simp [fetch, store, h]

theorem numOk_store : (r.store k p).NumOk := fun h => by simp [store] at h

end CheckpointRecord

namespace CheckpointRecordLog

variable {l : CheckpointRecordLog} {n m : Int} {r : CheckpointRecord}

/-- The record of a checkpoint in the window. -/
def record (P : Params) (l : CheckpointRecordLog) (n : Int) : CheckpointRecord :=
  l.records (l.recordIndex P n)

theorem record_set_self : record P (l.set P n r) n = r := Function.update_self _ _ _

theorem record_set_ne (hh : l.head % P.ckptInterval = 0) (hn : n % P.ckptInterval = 0)
    (hnw : l.withinRange P n = true) (hm : m % P.ckptInterval = 0)
    (hmw : l.withinRange P m = true) (h : m ≠ n) :
    record P (l.set P n r) m = record P l m :=
  Function.update_of_ne (fun he => h (recordIndex_inj hh hm hn hmw hnw he)) _ _

theorem records_set (h : ∀ k, (l.records k).NumOk) (hr : r.NumOk) (k : Nat) :
    ((l.set P n r).records k).NumOk := by
  by_cases hk : k = l.recordIndex P n
  · subst hk
    simpa [set] using hr
  · simpa [set, hk] using h k

theorem fetch_eq_some (h : l.fetch P n = some r) :
    l.withinRange P n = true ∧ r = record P l n := by
  unfold fetch at h
  split at h
  · rename_i hc
    cases h
    rw [Bool.and_eq_true] at hc
    exact ⟨hc.1, rfl⟩
  · cases h

/-- What `truncate` does to the records of the checkpoints in the new window. -/
theorem truncate_spec (hh : l.head % P.ckptInterval = 0) (hok : ∀ k, (l.records k).NumOk) {h : Int}
    {l' : CheckpointRecordLog} (ht : l.truncate P h = some l') (hin : h ≤ l.head + P.maxOut) :
    l'.head = max l.head h ∧ l'.head % P.ckptInterval = 0 ∧ (∀ k, (l'.records k).NumOk) ∧
      ∀ n : Int, n % P.ckptInterval = 0 → l'.withinRange P n = true →
        (l.withinRange P n = true ∧ record P l' n = record P l n) ∨
        (l.withinRange P n = false ∧ ∀ k, (record P l' n).fetch k = none) := by
  unfold truncate at ht
  split at ht
  · cases ht
  rename_i hmult
  have hmult : h % P.ckptInterval = 0 := not_not.1 hmult
  split at ht
  · cases ht
    exact ⟨(max_eq_left ‹_›).symm, hh, hok, fun n _ hw => .inl ⟨hw, rfl⟩⟩
  rename_i hlt
  have hw : l.withinRange P h = true := withinRange_iff.2 ⟨by omega, hin⟩
  rw [hw] at ht
  simp only [Bool.not_true, Bool.false_eq_true, if_false, Option.some.injEq] at ht
  obtain ⟨b, hb⟩ := exists_mult hh hmult (by omega)
  have hbs : b < slots P := (withinRange_mult b).1 (hb ▸ hw)
  have hhead : l'.head = h := by rw [← ht]
  have hrec : ∀ k < slots P, l'.records k = l.clearBelow P h k := by
    intro k hk
    rw [← ht]
    simp only
    split
    · rw [Function.update_of_ne hk.ne]
    · rfl
  have hbelow : ∀ k, (l.clearBelow P h k).NumOk := by
    intro k
    unfold clearBelow
    split
    · exact CheckpointRecord.numOk_clear (hok k)
    · exact hok k
  refine ⟨by rw [hhead, max_eq_right (by omega)], by rw [hhead]; exact hmult,
    fun k => ?_, fun n hn hwn => ?_⟩
  · rw [← ht]
    simp only
    split
    · by_cases hk : k = slots P
      · subst hk
        rw [Function.update_self]
        exact CheckpointRecord.numOk_clear (hbelow _)
      · rw [Function.update_of_ne hk]
        exact hbelow k
    · exact hbelow k
  · rcases truncate_record hh hb hbs hrec (by rw [← ht]) hn hwn with ⟨h1, h2⟩ | ⟨h1, m, -, -, -, h2⟩
    · exact .inl ⟨h1, h2⟩
    · refine .inr ⟨h1, fun k => ?_⟩
      rw [record, h2]
      exact CheckpointRecord.fetch_clear (hok _) k

end CheckpointRecordLog

/-! ## The copies that `update_ptree` makes -/

namespace Tree

variable {mem : Nat → Block} {n : Int} {l i : Nat} {s s' t : Tree × CheckpointRecord}

/-- The partition and its place in the record are as they were. -/
def Same (s s' : Tree × CheckpointRecord) (l i : Nat) : Prop :=
  s'.1.pt l i = s.1.pt l i ∧ s'.2.fetch (l, i) = s.2.fetch (l, i)

/-- The partition has the stamp `n`; the record has got a copy of the old one, unless it is a
block. -/
def Refreshed (c : TreeCfg) (n : Int) (s s' : Tree × CheckpointRecord) (l i : Nat) : Prop :=
  (s'.1.pt l i).lm = n ∧
    ((l + 1 = c.levels ∧ s'.2.fetch (l, i) = s.2.fetch (l, i)) ∨
      (s.2.fetch (l, i) = none ∧ s'.2.fetch (l, i) = some (s.1.copy l i)))

theorem Same.trans (h : Same s t l i) (h' : Same t s' l i) : Same s s' l i :=
  ⟨h'.1.trans h.1, h'.2.trans h.2⟩

theorem Same.refreshed (h : Same s t l i) (h' : Refreshed c n t s' l i) :
    Refreshed c n s s' l i := by
  have hcopy : t.1.copy l i = s.1.copy l i := by simp only [copy, h.1]
  refine ⟨h'.1, ?_⟩
  rw [← h.2, ← hcopy]
  exact h'.2

theorem Refreshed.same (h : Refreshed c n s t l i) (h' : Same t s' l i) :
    Refreshed c n s s' l i := by
  refine ⟨by rw [h'.1]; exact h.1, ?_⟩
  rw [h'.2]
  exact h.2

/-- One node. -/
theorem updateNode_spec (hl : l < c.levels) (hlm : (s.1.pt l i).lm ≠ -1)
    (h : updateNode c mem n l i s = some s') :
    s'.2.sd = s.2.sd ∧ (s.2.NumOk → s'.2.NumOk) ∧ Refreshed c n s s' l i ∧
      ∀ l' j, ¬(l' = l ∧ j = i) → Same s s' l' j := by
  simp only [updateNode, Option.map_eq_some_iff] at h
  obtain ⟨cr, hcr, rfl⟩ := h
  have hpt : ∀ l' j, ¬(l' = l ∧ j = i) → (s.1.refresh c mem n l i).pt l' j = s.1.pt l' j :=
    fun l' j hne => by
    rw [pt_refresh, if_neg hne]
  have hself : ((s.1.refresh c mem n l i).pt l i).lm = n := by rw [pt_refresh, if_pos ⟨rfl, rfl⟩]
  split at hcr
  · obtain ⟨hnone, rfl⟩ := CheckpointRecord.append_spec hcr
    refine ⟨rfl, fun _ => CheckpointRecord.numOk_store,
      ⟨hself, .inr ⟨hnone, ?_⟩⟩, fun l' j hne => ⟨hpt l' j hne, ?_⟩⟩
    · exact CheckpointRecord.fetch_store_self hlm
    · exact CheckpointRecord.fetch_store_ne fun he => hne (by simpa using he)
  · cases hcr
    exact ⟨rfl, id, ⟨hself, .inl ⟨by omega, rfl⟩⟩, fun l' j hne => ⟨hpt l' j hne, rfl⟩⟩

/-- The nodes of one level. -/
theorem updateNodes_spec (hl : l < c.levels) {is : List Nat} (hnd : is.Nodup) (hn : n ≠ -1)
    (hlm : ∀ l i, (s.1.pt l i).lm ≠ -1) (h : updateNodes c mem n l is s = some s') :
    s'.2.sd = s.2.sd ∧ (s.2.NumOk → s'.2.NumOk) ∧ (∀ l i, (s'.1.pt l i).lm ≠ -1) ∧
      (∀ i ∈ is, Refreshed c n s s' l i) ∧
      ∀ l' j, ¬(l' = l ∧ j ∈ is) → Same s s' l' j := by
  induction is generalizing s with
  | nil =>
    cases h
    exact ⟨rfl, id, hlm, by simp, fun _ _ _ => ⟨rfl, rfl⟩⟩
  | cons i is ih =>
    rw [List.nodup_cons] at hnd
    simp only [updateNodes, Option.bind_eq_bind, Option.bind_eq_some_iff] at h
    obtain ⟨t, ht, h⟩ := h
    obtain ⟨h1, h2, h3, h4⟩ := updateNode_spec hl (hlm l i) ht
    have hlmt : ∀ l' j, (t.1.pt l' j).lm ≠ -1 := fun l' j => by
      by_cases hself : l' = l ∧ j = i
      · obtain ⟨rfl, rfl⟩ := hself
        rw [h3.1]
        exact hn
      · rw [(h4 l' j hself).1]
        exact hlm l' j
    obtain ⟨g1, g2, g3, g4, g5⟩ := ih hnd.2 hlmt h
    refine ⟨g1.trans h1, fun hok => g2 (h2 hok), g3, fun j hj => ?_, fun l' j hne => ?_⟩
    · have hhead : Refreshed c n s s' l i := h3.same (g5 l i fun hh => hnd.1 hh.2)
      rcases List.mem_cons.1 hj with rfl | hmem
      · exact hhead
      · have hne : j ≠ i := by
          rintro rfl
          exact hnd.1 hmem
        exact (h4 l j fun hh => hne hh.2).refreshed (g4 j hmem)
    · exact (h4 l' j fun hh => hne ⟨hh.1, by simp [hh.2]⟩).trans (g5 l' j
        fun hh => hne ⟨hh.1, by simp [hh.2]⟩)

/-- The levels from `l` up: at level `l` exactly the modified nodes are refreshed. -/
theorem updateLevels_spec {mods : Nat → Bool} (hl : l < c.levels)
    (hmods : ∀ i, mods i = true → i < c.count l) (hn : n ≠ -1) (hlm : ∀ l i, (s.1.pt l i).lm ≠ -1)
    (h : updateLevels c mem n l mods s = some s') :
    s'.2.sd = s.2.sd ∧ (s.2.NumOk → s'.2.NumOk) ∧ ∀ l' i, (l < l' → Same s s' l' i) ∧
      (l' = l → (mods i = true ∧ Refreshed c n s s' l' i) ∨ (mods i = false ∧ Same s s' l' i)) ∧
      (l' < l → Same s s' l' i ∨ Refreshed c n s s' l' i) := by
  induction l generalizing mods s with
  | zero =>
    rw [updateLevels] at h
    split at h
    · rename_i hm
      simp only [Option.bind_eq_bind, Option.bind_eq_some_iff, Option.some.injEq] at h
      obtain ⟨cr, hcr, rfl⟩ := h
      obtain ⟨hnone, rfl⟩ := CheckpointRecord.append_spec hcr
      have hsame : ∀ l' i, ¬(l' = 0 ∧ i = 0) →
        Same s (s.1.refreshRoot c mem n, s.2.store (0, 0) (s.1.copy 0 0)) l' i :=
        fun l' i hne => ⟨by simp only [refreshRoot, pt_setNode, if_neg hne],
          CheckpointRecord.fetch_store_ne fun he => hne (by simpa using he)⟩
      refine ⟨rfl, fun _ => CheckpointRecord.numOk_store,
        fun l' i => ⟨fun hlt => hsame l' i (by omega), ?_, by omega⟩⟩
      rintro rfl
      by_cases hi : i = 0
      · subst hi
        refine .inl ⟨hm, ?_, .inr ⟨hnone, CheckpointRecord.fetch_store_self (hlm 0 0)⟩⟩
        simp only [refreshRoot, pt_setNode, and_self, if_true]
      · refine .inr ⟨?_, hsame 0 i fun hh => hi hh.2⟩
        by_contra hne
        have := hmods i (by simpa using hne)
        rw [count_root] at this
        omega
    · rename_i hm
      cases h
      refine ⟨rfl, id, fun l' i => ⟨fun _ => ⟨rfl, rfl⟩, fun _ => .inr ⟨?_, rfl, rfl⟩, by omega⟩⟩
      by_contra hne
      have hi : mods i = true := by simpa using hne
      have := hmods i hi
      rw [count_root] at this
      rw [show i = 0 by omega] at hi
      exact hm hi
  | succ l ih =>
    simp only [updateLevels, Option.bind_eq_bind, Option.bind_eq_some_iff] at h
    obtain ⟨t, ht, h⟩ := h
    have his : ∀ i ∈ setBits c (l + 1) mods, i < c.count (l + 1) :=
      fun i hi => hmods i (mods_of_mem hi)
    obtain ⟨h1, h2, h3, h4, h5⟩ := updateNodes_spec hl (List.nodup_range.filter _) hn hlm ht
    obtain ⟨g1, g2, g3⟩ := ih (by omega) (fun p hp => by
      obtain ⟨i, hi, hp⟩ := List.any_eq_true.1 hp
      rw [beq_iff_eq] at hp
      rw [← hp]
      exact parent_lt hl (his i hi)) h3 h
    refine ⟨g1.trans h1, fun hok => g2 (h2 hok), fun l' i => ⟨fun hlt => ?_, ?_, fun hlt => ?_⟩⟩
    · exact (h5 l' i (by omega)).trans ((g3 l' i).1 (by omega))
    · rintro rfl
      have hsame := (g3 (l + 1) i).1 (by omega)
      cases hm : mods i with
      | true => exact .inl ⟨rfl, (h4 i (mem_setBits hl (hmods i hm) hm)).same hsame⟩
      | false =>
        refine .inr ⟨rfl, (h5 (l + 1) i fun hh => ?_).trans hsame⟩
        rw [mods_of_mem hh.2] at hm
        cases hm
    · have hsame := h5 l' i (by omega)
      rcases Nat.lt_or_ge l' l with hlt' | hge
      · rcases (g3 l' i).2.2 hlt' with hs | hr
        · exact .inl (hsame.trans hs)
        · exact .inr (hsame.refreshed hr)
      · rcases (g3 l' i).2.1 (by omega) with ⟨-, hr⟩ | ⟨-, hs⟩
        · exact .inr (hsame.refreshed hr)
        · exact .inl (hsame.trans hs)

/-- **The copies of a checkpoint.** A partition that `update_ptree` does not change keeps its place
in the record; of one that it changes the record has the old one, already before if it is a
block. -/
theorem updateTree_spec {cowb : Nat → Bool} (hcow : ∀ i, cowb i = true → i < c.nb) (hn : n ≠ -1)
    (hlm : ∀ l i, (s.1.pt l i).lm ≠ -1) (h : updateTree c mem n cowb s = some s') :
    s'.2.sd = s.2.sd ∧ (s.2.NumOk → s'.2.NumOk) ∧ ∀ l i,
      (Same s s' l i ∧ (l + 1 = c.levels → cowb i = false)) ∨
      (Refreshed c n s s' l i ∧ (l + 1 = c.levels → cowb i = true)) := by
  have hpos := c.levels_pos
  obtain ⟨h1, h2, h3⟩ := updateLevels_spec (l := c.levels - 1) (by omega)
    (fun i hi => by rw [count_last]; exact hcow i hi) hn hlm h
  refine ⟨h1, h2, fun l i => ?_⟩
  obtain ⟨g1, g2, g3⟩ := h3 l i
  rcases Nat.lt_trichotomy l (c.levels - 1) with hlt | heq | hgt
  · rcases g3 hlt with hs | hr
    · exact .inl ⟨hs, fun _ => by omega⟩
    · exact .inr ⟨hr, fun _ => by omega⟩
  · rcases g2 heq with ⟨hm, hr⟩ | ⟨hm, hs⟩
    · exact .inr ⟨hr, fun _ => hm⟩
    · exact .inl ⟨hs, fun _ => hm⟩
  · exact .inl ⟨g1 hgt, fun _ => by omega⟩

end Tree

namespace CowState

open CheckpointRecordLog

variable {s t : CowState} {σ : Snapshot} {l i : Nat}

/-! ## Where an old partition is -/

/-- The record of `n` is the first one from the checkpoint on with a copy, and the copy is the old
partition. -/
structure FoundAt (P : Params) (c : TreeCfg) (s : CowState) (σ : Snapshot) (l i : Nat)
    (n : Int) : Prop where
  mult : n % P.ckptInterval = 0
  le : σ.seqno ≤ n
  sd : (record P s.clog n).sd.isZero = false
  copy : ∃ p, (record P s.clog n).fetch (l, i) = some p ∧
    p.lm = (σ.pt l i).lm ∧ p.d = (σ.pt l i).d ∧
    (l + 1 = c.levels → p.data = block c σ.mem i)
  first : ∀ m : Int, m % P.ckptInterval = 0 → σ.seqno ≤ m →
    m < n → (record P s.clog m).fetch (l, i) = none

/-- The old partition can be found: it is the current one, or there is a copy before the last
record. -/
structure Faithful (P : Params) (c : TreeCfg) (s : CowState) (σ : Snapshot) (l i : Nat) : Prop where
  current : (s.tree.pt l i).lm ≤ σ.seqno → s.tree.pt l i = σ.pt l i
  noCopy : (s.tree.pt l i).lm ≤ σ.seqno → ∀ m :
    Int, m % P.ckptInterval = 0 → σ.seqno ≤ m → m < s.lc →
    (record P s.clog m).fetch (l, i) = none
  memory : (s.tree.pt l i).lm ≤ σ.seqno → l + 1 = c.levels →
    s.cowb i = false → block c s.mem i = block c σ.mem i
  lastCopy : (s.tree.pt l i).lm ≤ σ.seqno → l + 1 = c.levels → ∀ p,
    (record P s.clog s.lc).fetch (l, i) = some p →
    p.data = block c σ.mem i
  copied : σ.seqno < (s.tree.pt l i).lm → ∃ n < s.lc, FoundAt P c s σ l i n

theorem FoundAt.congr {n : Int} (h : FoundAt P c s σ l i n)
    (hsame : ∀ m : Int, m % P.ckptInterval = 0 → σ.seqno ≤ m →
      m ≤ n → record P t.clog m = record P s.clog m) :
    FoundAt P c t σ l i n := by
  have hn := hsame n h.mult h.le le_rfl
  refine ⟨h.mult, h.le, ?_, ?_, fun m hm h1 h2 => ?_⟩
  · rw [hn]
    exact h.sd
  · rw [hn]
    exact h.copy
  · rw [hsame m hm h1 h2.le]
    exact h.first m hm h1 h2

/-- Between operations. The record of the last checkpoint has copies of the blocks that were
modified since, and no others. -/
structure Inv (P : Params) (c : TreeCfg) (s : CowState) : Prop where
  head : s.clog.head % P.ckptInterval = 0
  lc : s.lc % P.ckptInterval = 0
  window : s.clog.withinRange P s.lc = true
  numOk : ∀ k, (s.clog.records k).NumOk
  stamp : ∀ l i, 0 ≤ (s.tree.pt l i).lm ∧ (s.tree.pt l i).lm ≤ s.lc
  cowb : ∀ i, s.cowb i = true → i < c.nb
  root : (s.tree.pt 0 0).d.isZero = false
  sd : (record P s.clog s.lc).sd.isZero = false
  fresh : ∀ m : Int, m % P.ckptInterval = 0 → s.clog.withinRange P m = true → s.lc < m → ∀ k,
    (record P s.clog m).fetch k = none
  onlyModified : ∀ k p, (record P s.clog s.lc).fetch k = some p →
    k.1 + 1 = c.levels ∧ s.cowb k.2 = true
  modified : ∀ i, s.cowb i = true → ∃ p, (record P s.clog s.lc).fetch (c.levels - 1, i) = some p ∧
    p.lm = (s.tree.pt (c.levels - 1) i).lm ∧ p.d = (s.tree.pt (c.levels - 1) i).d
  last : ∃ σ ∈ s.taken, σ.seqno = s.lc
  taken : ∀ σ ∈ s.taken, σ.seqno % P.ckptInterval = 0 ∧ σ.seqno ≤ s.lc
  faithful : ∀ σ ∈ s.taken, s.clog.head ≤ σ.seqno → ∀ l i, Faithful P c s σ l i

/-- Checkpoints between the head and the last one are in the window. -/
theorem Inv.within (hi : Inv P c s) {m : Int} (h1 : s.clog.head ≤ m) (h2 : m ≤ s.lc) :
    s.clog.withinRange P m = true := by
  have := withinRange_iff.1 hi.window
  exact withinRange_iff.2 ⟨h1, by omega⟩

/-! ## Reading -/

theorem fetch_of_within {m : Int} (hm : m % P.ckptInterval = 0)
    (hw : s.clog.withinRange P m = true) :
    s.clog.fetch P m = some (record P s.clog m) := by
  simp [CheckpointRecordLog.fetch, hm, hw, record]

/-- The loop finds the first copy. -/
theorem search_found {k : PartKey} {p : Part} {j : Nat} {n : Int} (hn : n % P.ckptInterval = 0)
    (hw : ∀ m : Int, n ≤ m → m ≤ n + j * P.ckptInterval → s.clog.withinRange P m = true)
    (hlc : n + j * P.ckptInterval ≤ s.lc)
    (hsd : (record P s.clog (n + j * P.ckptInterval)).sd.isZero = false)
    (hp : (record P s.clog (n + j * P.ckptInterval)).fetch k = some p) (hfirst : ∀ m : Int, m %
      P.ckptInterval = 0 → n ≤ m → m < n + j * P.ckptInterval → (record P s.clog m).fetch k = none)
    {fuel : Nat} (hfuel : j < fuel) : s.search P k fuel n = some p := by
  have hK := P.ckptInterval_pos
  induction j generalizing n fuel with
  | zero =>
    obtain ⟨fuel, rfl⟩ := Nat.exists_eq_add_of_lt hfuel
    simp only [Nat.cast_zero, zero_mul, add_zero] at hlc hsd hp hw
    rw [Nat.zero_add, search, if_neg (by omega), fetch_of_within hn (hw n le_rfl le_rfl)]
    simp [hsd, hp]
  | succ j ih =>
    obtain ⟨fuel, rfl⟩ : ∃ f, fuel = f + 1 := ⟨fuel - 1, by omega⟩
    have hstep : n + ((j + 1 : Nat) : Int) * P.ckptInterval =
      n + P.ckptInterval + j * P.ckptInterval := by push_cast; ring
    have hpos : (0 : Int) < P.ckptInterval := by omega
    have hjK : (0 : Int) ≤ j * P.ckptInterval := by positivity
    rw [hstep] at hlc hsd hp hw hfirst
    have hnone : (record P s.clog n).fetch k = none := hfirst n hn le_rfl (by omega)
    have hnext := @ih (n + P.ckptInterval) (by rw [Int.add_emod_right]; exact hn)
      (fun m h1 h2 => hw m (by omega) h2) hlc hsd hp (fun m hm h1 h2 => hfirst m hm (by omega) h2)
        fuel (by omega)
    rw [search, if_neg (by omega), fetch_of_within hn (hw n le_rfl (by omega))]
    simp [hnone, hnext]

/-- The copy is found from the checkpoint on. -/
theorem FoundAt.search (hi : Inv P c s) (hσ : σ.seqno % P.ckptInterval = 0)
    (hhead : s.clog.head ≤ σ.seqno) {n : Int} (h : FoundAt P c s σ l i n) (hn : n ≤ s.lc) :
    ∃ p, s.search P (l, i) (s.rounds P σ.seqno) σ.seqno = some p ∧
      p.lm = (σ.pt l i).lm ∧ p.d = (σ.pt l i).d ∧
      (l + 1 = c.levels → p.data = block c σ.mem i) := by
  have hK := P.ckptInterval_pos
  obtain ⟨p, hp, h1, h2, h3⟩ := h.copy
  obtain ⟨j, hj⟩ : ∃ j : Nat, n = σ.seqno + j * P.ckptInterval :=
    exists_mult (l := { s.clog with head := σ.seqno }) hσ h.mult h.le
  refine ⟨p, search_found (j := j) hσ (fun m hm1 hm2 => hi.within (by omega) (by omega))
    (by omega) (hj ▸ h.sd) (hj ▸ hp)
    (fun m hm hm1 hm2 => h.first m hm hm1 (by omega)) ?_, h1, h2, h3⟩
  have : (j : Int) ≤ (s.lc - σ.seqno) / P.ckptInterval := by
    rw [Int.le_ediv_iff_mul_le (by omega)]
    omega
  rw [rounds]
  omega

/-- **Old partitions are found.** -/
theorem Inv.getMetaData (hi : Inv P c s) (hσ : σ ∈ s.taken) (hhead : s.clog.head ≤ σ.seqno) :
    s.getMetaData P σ.seqno l i = some (σ.pt l i) := by
  obtain ⟨hmult, hle⟩ := hi.taken σ hσ
  have hf := hi.faithful σ hσ hhead l i
  rw [CowState.getMetaData, if_pos (hi.within hhead hle)]
  split
  · rename_i hlm
    rw [hf.current hlm]
  · rename_i hlm
    obtain ⟨n, hn, hfound⟩ := hf.copied (by omega)
    obtain ⟨p, hp, h1, h2, -⟩ := hfound.search hi hmult hhead hn.le
    rw [hp]
    exact congrArg some (PartNode.eq_of h1 h2)

/-- **Old blocks are found.** -/
theorem Inv.getData (hi : Inv P c s) (hσ : σ ∈ s.taken) (hhead : s.clog.head ≤ σ.seqno)
    (hlt : i < c.nb) :
    s.getData P c σ.seqno i = some (block c σ.mem i) := by
  have hpos := c.levels_pos
  obtain ⟨hmult, hle⟩ := hi.taken σ hσ
  have hf := hi.faithful σ hσ hhead (c.levels - 1) i
  have hleaf : c.levels - 1 + 1 = c.levels := by omega
  rw [CowState.getData, if_pos (by simp [hi.within hhead hle, hlt])]
  have of_found : ∀ {n : Int}, FoundAt P c s σ (c.levels - 1) i n → n ≤ s.lc →
      (s.search P (c.levels - 1, i) (s.rounds P σ.seqno) σ.seqno).map Part.data =
        some (block c σ.mem i) := by
    intro n hfound hn
    obtain ⟨p, hp, -, -, h3⟩ := hfound.search hi hmult hhead hn
    rw [hp]
    exact congrArg some (h3 hleaf)
  split
  · rename_i hnow
    rw [hf.memory hnow.1 hleaf hnow.2]
  · rename_i hnot
    by_cases hlm : (s.tree.pt (c.levels - 1) i).lm ≤ σ.seqno
    · -- modified after the last checkpoint
      have hset : s.cowb i = true := by
        by_contra hne
        exact hnot ⟨hlm, by simpa using hne⟩
      obtain ⟨p, hp, h1, h2⟩ := hi.modified i hset
      have hcur := hf.current hlm
      exact of_found ⟨hi.lc, hle, hi.sd,
        ⟨p, hp, by rw [h1, hcur], by rw [h2, hcur], fun _ => hf.lastCopy hlm hleaf p hp⟩,
        fun m hm h1 h2 => hf.noCopy hlm m hm h1 h2⟩ le_rfl
    · obtain ⟨n, hn, hfound⟩ := hf.copied (by omega)
      exact of_found hfound hn.le

/-! ## What the operations keep -/

/-- A block is copied before it is written to. -/
theorem cowSingle_inv (hi : Inv P c s) (hclear : s.cowb i = false)
    (h : s.cowSingle P c i = some t) : Inv P c t := by
  have hpos := c.levels_pos
  obtain ⟨hlt, r, r', hr, hr', rfl⟩ := cowSingle_spec h
  obtain ⟨-, rfl⟩ := fetch_eq_some hr
  obtain ⟨hnone, rfl⟩ := CheckpointRecord.append_spec hr'
  have hlm : (s.tree.pt (c.levels - 1) i).lm ≠ -1 := by
    have := (hi.stamp (c.levels - 1) i).1
    omega
  have hother : ∀ {m : Int}, m % P.ckptInterval = 0 → s.clog.withinRange P m = true →
    m ≠ s.lc → ∀ r,
      record P (s.clog.set P s.lc r) m = record P s.clog m := fun hm hw hne r =>
    record_set_ne hi.head hi.lc hi.window hm hw hne
  refine ⟨hi.head, hi.lc, hi.window, records_set hi.numOk CheckpointRecord.numOk_store,
    hi.stamp, fun j hj => ?_, hi.root, ?_,
    fun m hm hw hlt k => ?_, fun k p hp => ?_, fun j hj => ?_,
      hi.last, hi.taken, fun σ hσ hhead l j => ?_⟩
  · by_cases hji : j = i
    · exact hji ▸ hlt
    · exact hi.cowb j (by simpa [hji] using hj)
  · simp only [record_set_self]
    exact hi.sd
  · rw [hother hm hw (ne_of_gt hlt)]
    exact hi.fresh m hm hw hlt k
  · simp only [record_set_self] at hp
    by_cases hk : k = (c.levels - 1, i)
    · subst hk
      exact ⟨by simp only; omega, by simp⟩
    · rw [CheckpointRecord.fetch_store_ne hk] at hp
      obtain ⟨h1, h2⟩ := hi.onlyModified k p hp
      have hne : k.2 ≠ i := fun he => hk (by rw [← he, show c.levels - 1 = k.1 by omega])
      exact ⟨h1, by simpa [hne] using h2⟩
  · simp only [record_set_self]
    by_cases hji : j = i
    · subst hji
      exact ⟨_, CheckpointRecord.fetch_store_self hlm, rfl, rfl⟩
    · rw [CheckpointRecord.fetch_store_ne (by simpa using hji)]
      exact hi.modified j (by simpa [hji] using hj)
  · have hf := hi.faithful σ hσ hhead l j
    refine ⟨hf.current, fun hle m hm h1 h2 => ?_,
      fun hle hleaf hcl => ?_, fun hle hleaf p hp => ?_, fun hlt => ?_⟩
    · change (record P (s.clog.set P s.lc _) m).fetch (l, j) = none
      have hm2 : m < s.lc := h2
      rw [hother hm (hi.within (le_trans hhead h1) hm2.le) hm2.ne]
      exact hf.noCopy hle m hm h1 h2
    · by_cases hji : j = i
      · simp [hji] at hcl
      · exact hf.memory hle hleaf (by simpa [hji] using hcl)
    · simp only [record_set_self] at hp
      by_cases hk : (l, j) = (c.levels - 1, i)
      · obtain ⟨rfl, rfl⟩ := Prod.mk.injEq .. ▸ hk
        rw [CheckpointRecord.fetch_store_self hlm, Option.some.injEq] at hp
        subst hp
        exact hf.memory hle hleaf hclear
      · rw [CheckpointRecord.fetch_store_ne hk] at hp
        exact hf.lastCopy hle hleaf p hp
    · obtain ⟨n, hn, hfound⟩ := hf.copied hlt
      exact ⟨n, hn, hfound.congr fun m hm h1 h2 =>
        hother hm (hi.within (le_trans hhead h1) (by omega)) (by omega) _⟩

theorem write_inv {d : Declare} {bytes : List (Nat × UInt8)} (hi : Inv P c s)
    (hv : WriteValid c d bytes) (h : s.write P c d bytes = some t) : Inv P c t := by
  simp only [write, Option.bind_eq_bind, Option.bind_eq_some_iff, Option.some.injEq] at h
  obtain ⟨u, hu, rfl⟩ := h
  have hiu : Inv P c u :=
    declare_induct (I := Inv P c) (fun _ _ _ hi hclear h => cowSingle_inv hi hclear h) hi hu
  refine ⟨hiu.head, hiu.lc, hiu.window, hiu.numOk, hiu.stamp,
    hiu.cowb, hiu.root, hiu.sd, hiu.fresh, hiu.onlyModified,
    hiu.modified, hiu.last, hiu.taken, fun σ hσ hhead l i => ?_⟩
  have hf := hiu.faithful σ hσ hhead l i
  refine ⟨hf.current, hf.noCopy, fun hle hleaf hcl => ?_, hf.lastCopy, fun hlt => ?_⟩
  · have hold := hf.memory hle hleaf hcl
    rw [(declare_kept hu).mem] at hold
    exact (write_block hv hu hcl).trans hold
  · obtain ⟨n, hn, h1, h2, h3, h4, h5⟩ := hf.copied hlt
    exact ⟨n, hn, h1, h2, h3, h4, h5⟩

/-- The old partition of a retained checkpoint, after the next checkpoint. -/
theorem Faithful.checkpoint {n : Int} {u : Tree × CheckpointRecord} (hi : Inv P c s)
    (hle : σ.seqno ≤ s.lc) (hf : Faithful P c s σ l i) (hlast : record P t.clog s.lc = u.2)
    (hlc : t.lc = n) (hlt : s.lc < n) (hn : n % P.ckptInterval = 0)
    (hsd : u.2.sd = (record P s.clog s.lc).sd) (hrec : ∀ m : Int,
      m % P.ckptInterval = 0 → σ.seqno ≤ m → m < s.lc → record P t.clog m = record P s.clog m)
    (hnone : ∀ m : Int, m % P.ckptInterval = 0 → s.lc < m →
      m ≤ n → (record P t.clog m).fetch (l, i) = none)
    (htree : t.tree = u.1) (hmem : t.mem = s.mem)
    (hspec : (Tree.Same (s.tree, record P s.clog s.lc) u l i ∧
      (l + 1 = c.levels → s.cowb i = false)) ∨
      (Tree.Refreshed c n (s.tree, record P s.clog s.lc) u l i ∧
        (l + 1 = c.levels → s.cowb i = true))) :
    Faithful P c t σ l i := by
  have hearly : ∀ {m : Int}, FoundAt P c s σ l i m → m < s.lc → FoundAt P c t σ l i m := by
    intro m hm hlt
    refine ⟨hm.mult, hm.le, ?_, ?_, fun k hk h1 h2 => ?_⟩
    · rw [hrec m hm.mult hm.le hlt]
      exact hm.sd
    · rw [hrec m hm.mult hm.le hlt]
      exact hm.copy
    · rw [hrec k hk h1 (by omega)]
      exact hm.first k hk h1 h2
  rcases hspec with ⟨⟨hpt, hcopy⟩, hclear⟩ | ⟨⟨hstamp, hcopy⟩, hset⟩
  · have hpt : t.tree.pt l i = s.tree.pt l i := htree ▸ hpt
    refine ⟨fun h => ?_, fun h m hm h1 h2 => ?_,
      fun h hleaf _ => ?_, fun h hleaf p hp => ?_, fun h => ?_⟩
    · rw [hpt] at h ⊢
      exact hf.current h
    · rw [hpt] at h
      rcases lt_trichotomy m s.lc with hm' | rfl | hm'
      · rw [hrec m hm h1 hm']
        exact hf.noCopy h m hm h1 hm'
      · -- the record of the last checkpoint has copies of modified blocks only
        rw [hlast, hcopy]
        by_contra hne
        obtain ⟨p, hp⟩ := Option.ne_none_iff_exists'.1 hne
        obtain ⟨hleaf, hset⟩ := hi.onlyModified _ p hp
        rw [hclear hleaf] at hset
        cases hset
      · exact hnone m hm hm' (by omega)
    · rw [hpt] at h
      rw [hmem]
      exact hf.memory h hleaf (hclear hleaf)
    · rw [hlc, hnone n hn hlt le_rfl] at hp
      cases hp
    · rw [hpt] at h
      obtain ⟨m, hm, hfound⟩ := hf.copied h
      exact ⟨m, by omega, hearly hfound hm⟩
  · have hstamp : (t.tree.pt l i).lm = n := htree ▸ hstamp
    have hgt : ¬(t.tree.pt l i).lm ≤ σ.seqno := by omega
    refine ⟨fun h => absurd h hgt, fun h => absurd h hgt,
      fun h => absurd h hgt, fun h => absurd h hgt, fun _ => ?_⟩
    by_cases hold : (s.tree.pt l i).lm ≤ σ.seqno
    · have hcur := hf.current hold
      refine ⟨s.lc, by omega, hi.lc, hle, ?_, ?_, fun m hm h1 h2 => ?_⟩
      · rw [hlast, hsd]
        exact hi.sd
      · rw [hlast]
        rcases hcopy with ⟨hleaf, hcopy⟩ | ⟨hfree, hcopy⟩
        · obtain ⟨p, hp, h1, h2⟩ := hi.modified i (hset hleaf)
          rw [show c.levels - 1 = l by omega] at hp h1 h2
          exact ⟨p, hcopy.trans hp, by rw [h1, hcur], by rw [h2, hcur],
            fun _ => hf.lastCopy hold hleaf p hp⟩
        · refine ⟨_, hcopy, congrArg PartNode.lm hcur, congrArg PartNode.d hcur, fun hleaf => ?_⟩
          obtain ⟨p, hp, -⟩ := hi.modified i (hset hleaf)
          rw [show c.levels - 1 = l by omega, hfree] at hp
          cases hp
      · rw [hrec m hm h1 h2]
        exact hf.noCopy hold m hm h1 h2
    · obtain ⟨m, hm, hfound⟩ := hf.copied (by omega)
      exact ⟨m, by omega, hearly hfound hm⟩

theorem checkpoint_inv {n : Int} (hi : Inv P c s) (hn : n % P.ckptInterval = 0) (hlt : s.lc < n)
    (h : s.checkpoint P c n = some t) (hroot : (t.tree.pt 0 0).d.isZero = false) : Inv P c t := by
  obtain ⟨cr, u, nr, hcr, hu, hnr, rfl⟩ := checkpoint_spec h
  obtain ⟨-, rfl⟩ := fetch_eq_some hcr
  obtain ⟨hnw, rfl⟩ := fetch_eq_some hnr
  have hnw : s.clog.withinRange P n = true := hnw
  have hn0 := (hi.stamp 0 0).1
  have hn1 := (hi.stamp 0 0).2
  have hlm : ∀ l i, (s.tree.pt l i).lm ≠ -1 := fun l i => by
    have := (hi.stamp l i).1
    omega
  obtain ⟨hsd, hok, hspec⟩ := Tree.updateTree_spec hi.cowb (by omega) hlm hu
  -- the records of the last checkpoint, of this one, and the others
  set clog := (s.clog.set P s.lc u.2).set P n { record P (s.clog.set P s.lc u.2) n with
    sd := (u.1.pt 0 0).d } with hclog
  have hother : ∀ m : Int, m % P.ckptInterval = 0 → s.clog.withinRange P m = true →
    m ≠ s.lc → m ≠ n →
      record P clog m = record P s.clog m := fun m hm hw h1 h2 =>
    (record_set_ne (l := s.clog.set P s.lc u.2) hi.head hn hnw hm hw h2).trans
      (record_set_ne hi.head hi.lc hi.window hm hw h1)
  have hlast : record P clog s.lc = u.2 :=
    (record_set_ne (l := s.clog.set P s.lc u.2) hi.head hn hnw hi.lc hi.window hlt.ne).trans
      record_set_self
  have hnew : record P clog n = { record P s.clog n with sd := (u.1.pt 0 0).d } := by
    rw [hclog, record_set_self, record_set_ne hi.head hi.lc hi.window hn hnw hlt.ne']
  have hnewfree : ∀ k, (record P clog n).fetch k = none := fun k => by
    rw [hnew]
    exact hi.fresh n hn hnw hlt k
  have hin := withinRange_iff.1 hnw
  refine ⟨hi.head, hn, hnw, ?_, fun l i => ?_, fun i hc => absurd hc Bool.false_ne_true,
    hroot, ?_, fun m hm hw hlt' k => ?_,
    fun k p hp => ?_, fun i hc => absurd hc Bool.false_ne_true,
      ⟨_, List.mem_cons_self, rfl⟩, fun σ hσ => ?_,
    fun σ hσ hhead l i => ?_⟩
  · refine records_set (records_set hi.numOk (hok (hi.numOk _))) ?_
    exact records_set (n := s.lc) hi.numOk (hok (hi.numOk _)) _
  · change 0 ≤ (u.1.pt l i).lm ∧ (u.1.pt l i).lm ≤ n
    have hst := hi.stamp l i
    rcases hspec l i with ⟨⟨hpt, -⟩, -⟩ | ⟨⟨hst', -⟩, -⟩
    · have hpt : u.1.pt l i = s.tree.pt l i := hpt
      rw [hpt]
      omega
    · omega
  · change (record P clog n).sd.isZero = false
    rw [hnew]
    exact hroot
  · change (record P clog m).fetch k = none
    have hlt' : n < m := hlt'
    rw [hother m hm hw (by omega) hlt'.ne']
    exact hi.fresh m hm hw (by omega) k
  · have hp : (record P clog n).fetch k = some p := hp
    rw [hnewfree k] at hp
    cases hp
  · rcases List.mem_cons.1 hσ with rfl | hσ
    · exact ⟨hn, le_rfl⟩
    · have := hi.taken σ hσ
      exact ⟨this.1, le_trans this.2 hlt.le⟩
  · rcases List.mem_cons.1 hσ with rfl | hσ
    · refine ⟨fun _ => rfl, fun _ m _ h1 h2 => absurd h2 (not_lt.2 h1),
        fun _ _ _ => rfl, fun _ _ p hp => ?_, fun h => ?_⟩
      · have hp : (record P clog n).fetch (l, i) = some p := hp
        rw [hnewfree] at hp
        cases hp
      · have h : n < (u.1.pt l i).lm := h
        have hst := hi.stamp l i
        rcases hspec l i with ⟨⟨hpt, -⟩, -⟩ | ⟨⟨hst', -⟩, -⟩
        · have hpt : u.1.pt l i = s.tree.pt l i := hpt
          rw [hpt] at h
          omega
        · omega
    · have hle := (hi.taken σ hσ).2
      have hhead : s.clog.head ≤ σ.seqno := hhead
      refine Faithful.checkpoint (n := n) hi hle (hi.faithful σ hσ hhead l i)
        hlast rfl hlt hn hsd (fun m hm h1 h2 => ?_)
        (fun m hm h1 h2 => ?_) rfl rfl (hspec l i)
      · exact hother m hm (hi.within (by omega) (by omega)) h2.ne (by omega)
      · rcases eq_or_lt_of_le h2 with rfl | h2
        · exact hnewfree _
        · have hw : s.clog.withinRange P m = true := withinRange_iff.2 ⟨by omega, by omega⟩
          change (record P clog m).fetch (l, i) = none
          rw [hother m hm hw h1.ne' h2.ne]
          exact hi.fresh m hm hw h1 _

/-- Truncating up to the last checkpoint keeps the records from the new head on. -/
theorem discard_inv {seqno le : Int} (hi : Inv P c s) (hle : seqno ≤ s.lc)
    (h : s.discard P c seqno le = some t) : Inv P c t := by
  simp only [discard, closeCkpt, Option.bind_eq_bind, Option.bind_eq_some_iff,
    Option.some.injEq] at h
  obtain ⟨u, hu, clog, htr, rfl⟩ := h
  rw [if_neg (by omega), Option.some.injEq] at hu
  subst hu
  have hwin := withinRange_iff.1 hi.window
  obtain ⟨hhead, hmult, hok, hrec⟩ := truncate_spec hi.head hi.numOk htr (by omega)
  have hsame : ∀ m : Int, m % P.ckptInterval = 0 → clog.head ≤ m →
    m ≤ s.lc → record P clog m = record P s.clog m := by
    intro m hm h1 h2
    rcases hrec m hm (withinRange_iff.2 ⟨h1, by omega⟩) with ⟨-, h⟩ | ⟨hout, -⟩
    · exact h
    · rw [hi.within (by omega) h2] at hout
      cases hout
  have hlast := hsame s.lc hi.lc (by omega) le_rfl
  refine ⟨hmult, hi.lc, withinRange_iff.2 ⟨by simp only; omega, by simp only; omega⟩,
    hok, hi.stamp, hi.cowb, hi.root, ?_,
    fun m hm hw hlt k => ?_, fun k p hp => ?_, fun i hset => ?_,
      hi.last, hi.taken, fun σ hσ hhead' l i => ?_⟩
  · simp only [hlast]
    exact hi.sd
  · rcases hrec m hm hw with ⟨hw', heq⟩ | ⟨-, hnone⟩
    · simp only [heq]
      exact hi.fresh m hm hw' hlt k
    · exact hnone k
  · simp only [hlast] at hp
    exact hi.onlyModified k p hp
  · simp only [hlast]
    exact hi.modified i hset
  · have hhead' : clog.head ≤ σ.seqno := hhead'
    have hf := hi.faithful σ hσ (by omega) l i
    refine ⟨hf.current, fun h m hm h1 h2 => ?_, hf.memory, fun h hleaf p hp => ?_, fun h => ?_⟩
    · have h2 : m < s.lc := h2
      change (record P clog m).fetch (l, i) = none
      rw [hsame m hm (by omega) h2.le]
      exact hf.noCopy h m hm h1 h2
    · simp only [hlast] at hp
      exact hf.lastCopy h hleaf p hp
    · obtain ⟨n, hn, hfound⟩ := hf.copied h
      have heq := hsame n hfound.mult (le_trans hhead' hfound.le) hn.le
      refine ⟨n, hn, hfound.mult, hfound.le, ?_, ?_, fun m hm h1 h2 => ?_⟩
      · simp only [heq]
        exact hfound.sd
      · simp only [heq]
        exact hfound.copy
      · simp only [hsame m hm (le_trans hhead' h1) (by omega)]
        exact hfound.first m hm h1 h2

/-! ## Rollback -/

theorem block_putBlock_self (mem m : Nat → UInt8) (i : Nat) :
    block c (putBlock c mem i (block c m i)) i = block c m i := by
  unfold block
  refine List.map_congr_left fun k hk => ?_
  have hk := List.mem_range.1 hk
  have hmod : (i * c.blockSize + k) % c.blockSize = k := by
    rw [Nat.add_comm, Nat.add_mul_mod_self_right, Nat.mod_eq_of_lt hk]
  simp [putBlock, div_block hk, hmod, hk]

theorem block_putBlock_ne (mem : Nat → UInt8) {j : Nat} (b : Block) (h : j ≠ i) :
    block c (putBlock c mem i b) j = block c mem j := by
  refine block_congr fun a ha => ?_
  rw [putBlock, if_neg (by rw [ha]; exact h)]

/-- The blocks in the list are as their copies, the others as before. -/
theorem restore_spec {r : CheckpointRecord} {m : Nat → UInt8} {is : List Nat}
    (hcopy : ∀ i ∈ is, ∃ p, r.fetch (c.levels - 1, i) = some p ∧ p.data = block c m i)
    (mem : Nat → UInt8) :
    ∃ mem', restore c r is mem = some mem' ∧
      ∀ i, (i ∈ is → block c mem' i = block c m i) ∧ (i ∉ is → block c mem' i = block c mem i) := by
  induction is generalizing mem with
  | nil => exact ⟨mem, rfl, fun i => ⟨by simp, fun _ => rfl⟩⟩
  | cons j is ih =>
    obtain ⟨p, hp, hdata⟩ := hcopy j (by simp)
    obtain ⟨mem', hr, hmem'⟩ :=
      ih (fun i hmem => hcopy i (by simp [hmem])) (putBlock c mem j p.data)
    refine ⟨mem', by simp [restore, hp, hr], fun i => ⟨fun hmem => ?_, fun hnot => ?_⟩⟩
    · by_cases his : i ∈ is
      · exact (hmem' i).1 his
      · have hij : i = j := by simpa [his] using hmem
        subst hij
        rw [(hmem' i).2 his, hdata, block_putBlock_self]
    · rw [List.mem_cons, not_or] at hnot
      rw [(hmem' i).2 hnot.2, block_putBlock_ne _ _ hnot.1]

/-- A rollback succeeds, and every block is as at the last checkpoint. -/
theorem rollback_spec (hi : Inv P c s) (hσ : σ ∈ s.taken) (hlc : σ.seqno = s.lc) :
    ∃ mem', (∀ i, block c mem' i = block c σ.mem i) ∧ s.rollback P c = some { s with
      mem := mem', cowb := fun _ => false
      clog :=
        s.clog.set P s.lc { (record P s.clog s.lc).clear with sd := (s.tree.pt 0 0).d } } := by
  have hpos := c.levels_pos
  have hleaf : c.levels - 1 + 1 = c.levels := by omega
  have hhead := (withinRange_iff.1 hi.window).1
  have hfaith := fun i => hi.faithful σ hσ (by omega) (c.levels - 1) i
  have hstamp := fun i => hi.stamp (c.levels - 1) i
  have hcopy : ∀ i ∈ (List.range c.nb).filter s.cowb, ∃ p,
    (record P s.clog s.lc).fetch (c.levels - 1, i) = some p ∧
      p.data = block c σ.mem i := fun i hmem => by
    obtain ⟨p, hp, -⟩ := hi.modified i (List.mem_filter.1 hmem).2
    exact ⟨p, hp, (hfaith i).lastCopy (by have := hstamp i; omega) hleaf p hp⟩
  obtain ⟨mem', hr, hmem'⟩ := restore_spec hcopy s.mem
  refine ⟨mem', fun i => ?_, ?_⟩
  · by_cases hset : s.cowb i = true
    · exact (hmem' i).1 (List.mem_filter.2 ⟨List.mem_range.2 (hi.cowb i hset), hset⟩)
    · rw [(hmem' i).2 fun hmem => hset (List.mem_filter.1 hmem).2]
      exact (hfaith i).memory (by have := hstamp i; omega) hleaf (by simpa using hset)
  · have h0 := hi.stamp 0 0
    rw [rollback, if_neg (by omega)]
    simp [fetch_of_within hi.lc hi.window, hr]

theorem rollback_inv (hi : Inv P c s) (h : s.rollback P c = some t) : Inv P c t := by
  obtain ⟨σ₀, hσ₀, hlc₀⟩ := hi.last
  obtain ⟨mem', hmem', hr⟩ := rollback_spec hi hσ₀ hlc₀
  rw [hr, Option.some.injEq] at h
  subst h
  have hhead₀ := (withinRange_iff.1 hi.window).1
  have hclear : ∀ k, ({ (record P s.clog s.lc).clear with sd := (s.tree.pt 0 0).d } :
    CheckpointRecord).fetch k = none :=
    CheckpointRecord.fetch_clear (hi.numOk _)
  have hother : ∀ {m : Int}, m % P.ckptInterval = 0 → s.clog.withinRange P m = true →
    m ≠ s.lc → ∀ r,
      record P (s.clog.set P s.lc r) m = record P s.clog m := fun hm hw hne r =>
    record_set_ne hi.head hi.lc hi.window hm hw hne
  refine ⟨hi.head, hi.lc, hi.window, records_set hi.numOk ?_,
    hi.stamp, fun i hc => absurd hc Bool.false_ne_true, hi.root, ?_,
    fun m hm hw hlt k => ?_, fun k p hp => ?_, fun i hc => absurd hc Bool.false_ne_true,
      hi.last, hi.taken,
    fun σ hσ hhead l i => ?_⟩
  · exact CheckpointRecord.numOk_clear (hi.numOk _)
  · simp only [record_set_self]
    exact hi.root
  · rw [hother hm hw (ne_of_gt hlt)]
    exact hi.fresh m hm hw hlt k
  · simp only [record_set_self, hclear] at hp
    cases hp
  · have hf := hi.faithful σ hσ hhead l i
    refine ⟨hf.current, fun h m hm h1 h2 => ?_,
      fun h hleaf _ => ?_, fun _ _ p hp => ?_, fun h => ?_⟩
    · change (record P (s.clog.set P s.lc _) m).fetch (l, i) = none
      have h2 : m < s.lc := h2
      rw [hother hm (hi.within (le_trans hhead h1) h2.le) h2.ne]
      exact hf.noCopy h m hm h1 h2
    · -- the block as of the last checkpoint is the one as of `σ`
      have hf₀ := hi.faithful σ₀ hσ₀ (by omega) l i
      have hst := hi.stamp l i
      have h : (s.tree.pt l i).lm ≤ σ.seqno := h
      refine (hmem' i).trans ?_
      by_cases hset : s.cowb i = true
      · obtain ⟨p, hp, -⟩ := hi.modified i hset
        rw [show c.levels - 1 = l by omega] at hp
        exact (hf₀.lastCopy (by omega) hleaf p hp).symm.trans (hf.lastCopy h hleaf p hp)
      · have hclear : s.cowb i = false := by simpa using hset
        exact (hf₀.memory (by omega) hleaf hclear).symm.trans (hf.memory h hleaf hclear)
    · simp only [record_set_self, hclear] at hp
      cases hp
    · obtain ⟨n, hn, hfound⟩ := hf.copied h
      exact ⟨n, hn, hfound.congr fun m hm h1 h2 =>
        hother hm (hi.within (le_trans hhead h1) (by omega)) (by omega) _⟩

/-! ## Runs -/

/-- Writes keep to their declarations, checkpoints are taken at increasing multiples of the interval
and their state digests have a first word that is not zero, and the last checkpoint is retained. -/
def Keeps (P : Params) (c : TreeCfg) (s : CowState) : CowOp → Prop
  | .write d bytes => WriteValid c d bytes
  | .checkpoint n =>
    n % P.ckptInterval = 0 ∧ s.lc < n ∧ ∀ t, s.checkpoint P c n = some t →
      (t.tree.pt 0 0).d.isZero = false
  | .rollback => True
  | .discard seqno _ => seqno ≤ s.lc

theorem start_inv {mem : Nat → UInt8} (h0 : ((start P c mem).tree.pt 0 0).d.isZero = false) :
    Inv P c (start P c mem) := by
  have hlm : ∀ l i, ((start P c mem).tree.pt l i).lm = 0 :=
    (Tree.computeFull_settled (block c mem) fun _ _ => 0).2
  have hself : ∀ k, (record P (start P c mem).clog 0).fetch k = none := fun k => by
    simp only [start, record_set_self]
    rfl
  refine ⟨Int.zero_emod _, Int.zero_emod _,
    withinRange_iff.2 ⟨le_rfl, by simp [start, CheckpointRecordLog.set, new]⟩,
    records_set (fun _ _ _ => rfl) (fun _ _ => rfl),
      fun l i => ?_, fun i hc => absurd hc Bool.false_ne_true, h0, ?_,
    fun m hm hw hlt k => ?_, fun k p hp => ?_, fun i hc => absurd hc Bool.false_ne_true,
      ⟨_, List.mem_singleton_self _, rfl⟩,
    fun σ hσ => ?_, fun σ hσ _ l i => ?_⟩
  · rw [hlm]
    exact ⟨le_rfl, le_rfl⟩
  · simp only [start, record_set_self]
    exact h0
  · have hw0 : (new : CheckpointRecordLog).withinRange P 0 = true :=
      withinRange_iff.2 ⟨le_rfl, by simp [new]⟩
    simp only [start]
    rw [record_set_ne (l := new) (Int.zero_emod _) (Int.zero_emod _) hw0 hm hw (ne_of_gt hlt)]
    rfl
  · rw [show (start P c mem).lc = 0 from rfl, hself] at hp
    cases hp
  · obtain rfl : σ = _ := List.mem_singleton.1 hσ
    exact ⟨Int.zero_emod _, le_rfl⟩
  · obtain rfl : σ = _ := List.mem_singleton.1 hσ
    refine ⟨fun _ => rfl, fun _ m _ h1 h2 => absurd h2 (not_lt.2 h1),
      fun _ _ _ => rfl, fun _ _ p hp => ?_, fun h => ?_⟩
    · rw [show (start P c mem).lc = 0 from rfl, hself] at hp
      cases hp
    · rw [hlm] at h
      exact absurd h (lt_irrefl _)

theorem run_inv {mem : Nat → UInt8} {ops : List CowOp}
    (h0 : ((start P c mem).tree.pt 0 0).d.isZero = false)
    (hv : Run.Meets (step P c) (Keeps P c) (start P c mem) ops)
    (hr : Run.run (step P c) (start P c mem) ops = some s) :
    Inv P c s := by
  refine Run.invariant (fun s op t hi hop h => ?_) (start_inv h0) hv hr
  cases op with
  | write d bytes => exact write_inv hi hop h
  | checkpoint n => exact checkpoint_inv hi hop.1 hop.2.1 h (hop.2.2 t h)
  | rollback => exact rollback_inv hi h
  | discard seqno le => exact discard_inv hi hop h

/-- **Copy-on-write checkpoints are faithful.** Every retained checkpoint is read as it was when it
was taken, blocks and partitions; and a rollback succeeds and restores every block as of the last
checkpoint. -/
theorem checkpoints_faithful {mem : Nat → UInt8} {ops : List CowOp}
    (h0 : ((start P c mem).tree.pt 0 0).d.isZero = false)
    (hv : Run.Meets (step P c) (Keeps P c) (start P c mem) ops)
    (hr : Run.run (step P c) (start P c mem) ops = some s) :
    (∀ σ ∈ s.taken, s.clog.head ≤ σ.seqno →
      (∀ i < c.nb, s.getData P c σ.seqno i = some (block c σ.mem i)) ∧
      ∀ l i, s.getMetaData P σ.seqno l i = some (σ.pt l i)) ∧
    ∃ σ ∈ s.taken, σ.seqno = s.lc ∧ ∃ t, s.rollback P c = some t ∧ ∀ i,
      block c t.mem i = block c σ.mem i := by
  have hi := run_inv h0 hv hr
  refine ⟨fun σ hσ hhead =>
    ⟨fun i hlt => hi.getData hσ hhead hlt, fun l i => hi.getMetaData hσ hhead⟩, ?_⟩
  obtain ⟨σ, hσ, hlc⟩ := hi.last
  obtain ⟨mem', hmem', hroll⟩ := rollback_spec hi hσ hlc
  exact ⟨σ, hσ, hlc, _, hroll, hmem'⟩

/-- The sum of the bytes in place of a hash. -/
def sumHash : TreeCfg := { twoBlocks with
      hash := fun b i n => BitVec.ofNat 256 (b.foldl (fun x y => x + y.toNat) (i + n.toNat + 1)) }

/-- A write across both blocks, a checkpoint, and another write. -/
def rewriteRun : List CowOp := crossRun ++ [.write (.modify1 0) [(1, 5)]]

theorem checkpoints_faithful_sumHash :
    ∃ s, Run.run (step Params.default sumHash) (start Params.default sumHash
        fun _ => 0) rewriteRun = some s ∧
      s.taken.length = 2 ∧ ∀ σ ∈ s.taken, s.clog.head ≤ σ.seqno →
        ∀ i < 2, s.getData Params.default sumHash σ.seqno i = some (block sumHash σ.mem i) := by
  have h0 : ((start Params.default sumHash fun _ => 0).tree.pt 0 0).d.isZero = false := by
    decide +kernel
  have hv : Run.Meets (step Params.default sumHash) (Keeps Params.default sumHash)
      (start Params.default sumHash fun _ => 0) rewriteRun := by
    refine ⟨⟨trivial, ?_⟩, fun s hs =>
      ⟨?_, fun t _ => ⟨⟨show 0 < 2 * 2 by decide, ?_⟩, fun _ _ => trivial⟩⟩⟩
    · simp only [List.mem_cons, List.not_mem_nil, or_false]
      rintro b (rfl | rfl) <;> simp [Declare.Covers, sumHash, twoBlocks]
    · obtain rfl := Option.some.inj hs
      refine ⟨by decide, by decide, fun t ht => ?_⟩
      obtain rfl := Option.some.inj ht
      decide +kernel
    · simp only [List.mem_cons, List.not_mem_nil, or_false]
      rintro b rfl
      simp [Declare.Covers, sumHash, twoBlocks]
  obtain ⟨s, hr, hlen⟩ := (Option.any_eq_true _ _).1 (show (Run.run (step Params.default sumHash)
    (start Params.default sumHash fun _ => 0) rewriteRun).any (fun s => s.taken.length == 2) =
      true by decide +kernel)
  exact ⟨s, hr, beq_iff_eq.1 hlen, fun σ hσ hhead =>
    ((checkpoints_faithful h0 hv hr).1 σ hσ hhead).1⟩

/-- Three blocks of two bytes. -/
def threeBlocks : TreeCfg where
  __ := twoBlocks
  psize l := if l = 0 then 1 else 3
  nb := 3
  psize_pos l := by split <;> decide
  nb_pos := by decide
  nb_le := by decide

/-- The first and the last block are modified; then a range over all three is declared with
`Byz_modify2`, and a byte of the block in the middle is written. -/
def gapRun : List CowOp :=
  [.write (.modify1 0) [(0, 1)], .write (.modify1 4) [(4, 1)], .write (.modify2 0 6) [(2, 9)]]

/-- A hash whose first word is zero. -/
def zeroHash : TreeCfg := { twoBlocks with hash := fun _ _ _ => 0 }

/-- `_Byz_modify2` looks at the first and the last block only: no copy is made of the block between
them, and the new contents are read as those of the checkpoint. And where the state digest of the
checkpoint starts with a zero word, the copy of a block that was modified after it is not found. -/
theorem getData_misses_copy :
    (∃ s, Run.run (step Params.default threeBlocks) (start Params.default threeBlocks
          fun _ => 0) gapRun = some s ∧
      s.taken.map Snapshot.seqno = [0] ∧ s.getData Params.default threeBlocks 0 1 = some [9, 0] ∧
      block threeBlocks (fun _ => 0) 1 = [0, 0]) ∧
    ∃ s, Run.run (step Params.default zeroHash) (start Params.default zeroHash
        fun _ => 0) [.write (.modify1 0) [(0, 1)]] = some s ∧
      s.taken.map Snapshot.seqno = [0] ∧ s.getData Params.default zeroHash 0 0 = none := by
  refine ⟨⟨_, rfl, rfl, ?_, by decide⟩, _, rfl, rfl, ?_⟩
  · decide +kernel
  · decide +kernel

end CowState

end TinyBFT
