import TinyBFT.Completion

/-!
# What a new-view message picks

A new-view message names view-changes by their digests and picks one of them for each sequence
number. A backup takes the digest of its prepare from the view-change that is picked; the primary
takes its pre-prepare from the entry of its own summary (`fetch_request`, `NV_info.cc:670-705`), and
nothing compares the two. They agree: the entry that was completed for a sequence number is the
request of the view-change that the message picks for it, and its pre-prepare has the digest of the
entry.

| here | there |
| --- | --- |
| `requestDigest` | the digest that `fetch_request` returns for what a view-change says of a sequence number |
| `Picks`         | the message picks a request with this digest |
| `Sourced`       | where the parts of an `NV_info` come from: view-changes of `VC`, new-views of `NV` |
| `Finished`      | what `make_new_view` writes (`NV_info.cc:566-585`) |
| `Frozen`        | a complete `NV_info` keeps its message |
-/

namespace TinyBFT

/-- The digest that stands for what a view-change says of a sequence number; `d = 0` or a negative
view is a null request. -/
def Cfg.requestDigest (cfg : Cfg) (r : Int × Digest) : Digest :=
  if 0 ≤ r.1 ∧ r.2 ≠ 0 then r.2 else cfg.batchDigest []

/-- The message picks, for `n`, a view-change whose request has digest `d`. -/
def NewView.Picks (cfg : Cfg) (VC : ViewChange → Prop) (nv : NewView) (n : Int)
    (d : Digest) : Prop :=
  ∃ (i : Nat) (vc : ViewChange) (r : Int × Digest),
    VC vc ∧ nv.min < n ∧ nv.whichPicked n = some (i : Int) ∧
    nv.vcInfo i = cfg.vcDigest vc ∧ vc.req cfg.P n = some r ∧ d = cfg.requestDigest r

/-- Of the view-changes that occur no two have one digest. -/
def NoCollision (cfg : Cfg) (VC : ViewChange → Prop) : Prop :=
  ∀ a b, VC a → VC b → cfg.vcDigest a = cfg.vcDigest b → a = b

/-- A message picks one request for a sequence number. -/
theorem NewView.Picks.unique {cfg : Cfg} {VC : ViewChange → Prop} {nv : NewView} {n : Int}
    {d d' : Digest} (hVC : NoCollision cfg VC) (h : nv.Picks cfg VC n d)
    (h' : nv.Picks cfg VC n d') : d = d' := by
  obtain ⟨i, vc, r, hvc, -, hi, hdig, hr, rfl⟩ := h
  obtain ⟨i', vc', r', hvc', -, hi', hdig', hr', rfl⟩ := h'
  have hii : i = i' := by
    rw [hi] at hi'
    exact Int.ofNat_inj.1 (Option.some.inj hi')
  subst hii
  have hvv : vc = vc' := hVC vc vc' hvc hvc' (hdig.symm.trans hdig')
  subst hvv
  rw [Option.some.inj (hr.symm.trans hr')]

theorem NewView.Picks.mono {cfg : Cfg} {VC VC' : ViewChange → Prop} {nv : NewView} {n : Int}
    {d : Digest} (h : nv.Picks cfg VC n d) (hVC : ∀ vc, VC vc → VC' vc) : nv.Picks cfg VC' n d := by
  obtain ⟨i, vc, r, hvc, hrest⟩ := h
  exact ⟨i, vc, r, hVC vc hvc, hrest⟩

/-- The message is about the sequence numbers between its `min` and its `max`. -/
theorem NewView.Picks.range {cfg : Cfg} {VC : ViewChange → Prop} {nv : NewView} {n : Int}
    {d : Digest} (h : nv.Picks cfg VC n d) :
    nv.min < n ∧ n < nv.max := by
  obtain ⟨i, vc, r, -, hlo, hi, -⟩ := h
  unfold NewView.whichPicked at hi
  split at hi
  · rename_i hr
    exact ⟨hlo, hr.2⟩
  · cases hi

namespace NVInfo

open Prog (Ensures Reaches Within Composes Holds get modify assert ofOption when each eachUntil)

/-- The entry is the request of a view-change of `F`, and its pre-prepare has the digest of the
entry. -/
structure Made (P : Params) (F : Nat → Option ViewChange) (i : Int) (c : ReqSum) : Prop where
  req : ∃ vc, F c.id = some vc ∧ vc.req P i = some (c.v, c.d)
  pi : ∀ pp, c.pi = some pp → pp.digest = c.d

/-- For each sequence number the message picks the view-change of the entry that was completed. -/
def Finished (s : NVInfo) (nv : NewView) : Prop :=
  ∀ n, nv.min < n → n < nv.max → ∃ j c, s.comp n = some (some j) ∧ s.cell n j = some c ∧
    nv.picked (n - nv.min).toNat = NewView.toChar c.id ∧ nv.vcInfo c.id ≠ 0

/-- The pre-prepares of the entries are of view `w`. -/
def Dated (w : Int) (reqs : List (List ReqSum)) : Prop :=
  ∀ r ∈ reqs, ∀ c ∈ r, ∀ pp, c.pi = some pp → pp.view = w

variable (cfg : Cfg) (id : Nat) (VC : ViewChange → Prop) (NV : NewView → Prop)

structure Sourced (s : NVInfo) : Prop where
  zero : s.v = 0 → s.nv = none ∧ (∀ i, s.vcOf i = none) ∧ s.reqs = [] ∧ s.isComplete = false
  /-- View-changes are filed under their senders. -/
  filed : ∀ i vc, s.vcOf i = some vc → vc.id = i ∧ i < cfg.n ∧ vc.v ≠ 0 ∧ VC vc
  /-- A backup has been given its message, and has the view-changes that it names; … -/
  heard : cfg.primary s.v ≠ id → ∀ nv, s.nv = some nv → NV nv ∧ nv.v = s.v ∧ ∀ i vc,
    s.vcOf i = some vc → nv.vcInfo i = cfg.vcDigest vc
  /-- … the primary names those that it has. -/
  own : cfg.primary s.v = id → ∀ nv, s.nv = some nv → nv.v = s.v ∧
    ∀ i, nv.vcInfo i ≠ 0 → ∃ vc, s.vcOf i = some vc ∧ nv.vcInfo i = cfg.vcDigest vc
  empty : cfg.primary s.v = id → s.chosenCkpt = none → s.reqs = []
  made : cfg.primary s.v = id → ∀ i j c, s.cell i j = some c → Made cfg.P s.vcOf i c
  dated : Dated s.v s.reqs
  sent : s.nvSent = true → cfg.primary s.v = id ∧ s.isComplete = true ∧
    s.chosenCkpt.isSome = true ∧ ∃ nv, s.nv = some nv ∧ Finished s nv
  calls : ∀ min d max ms, .processNewView min d max ms ∈ s.calls → s.isComplete = true ∧
    (cfg.primary s.v = id → s.nvSent = true ∧ ∃ nv, s.nv = some nv ∧ nv.max = max)

/-- `Sourced` in view `w`, which was changed to, with the view-changes `F`. -/
structure SourcedWith (F : Nat → Option ViewChange) (w : Int) (s : NVInfo) :
    Prop extends Sourced cfg id VC NV s where
  vcs : s.vcOf = F
  v : s.v = w
  changed : w ≠ 0

/-- A complete `NV_info` keeps its message. -/
def Frozen (s t : NVInfo) : Prop :=
  s.isComplete = true → t.isComplete = true ∧ t.v = s.v ∧ t.nv = s.nv ∧ t.nvSent = s.nvSent

/-- What the parent's log finds has the digest that is asked for. -/
def Matching (V : NVEnv) : Prop := ∀ n d m, V.prePrepare n d = some (some m) → m.digest = d

variable {cfg id VC NV} {V : NVEnv} {F : Nat → Option ViewChange} {w : Int} {s t u : NVInfo}

theorem Made.of_eq {P : Params} {i : Int} {c c' : ReqSum} (h : Made P F i c) (hv : c'.v = c.v)
    (hd : c'.d = c.d) (hid : c'.id = c.id) (hpi : ∀ pp, c'.pi = some pp → pp.digest = c'.d) :
    Made P F i c' :=
  ⟨by rw [hv, hd, hid]; exact h.req, hpi⟩

theorem dated_nil : Dated w [] := fun _ hr => (List.not_mem_nil hr).elim

theorem Dated.cell (h : Dated w s.reqs) {i : Int} {j : Nat} {c : ReqSum} (hc : s.cell i j = some c)
    (pp : PrePrepareMsg) (hpp : c.pi = some pp) :
    pp.view = w := by
  obtain ⟨k, r, -, hr, hj⟩ := cell_eq_some.1 hc
  exact h r (List.mem_of_getElem? hr) c (List.mem_of_getElem? hj) pp hpp

/-- Empty rows are added. -/
theorem Dated.grow {reqs : List (List ReqSum)} (h : Dated w reqs) (n : Nat) :
    Dated w (reqs ++ List.replicate n []) := by
  intro r hr
  rcases List.mem_append.1 hr with hr | hr
  · exact h r hr
  · rw [List.eq_of_mem_replicate hr]
    exact fun _ hc => (List.not_mem_nil hc).elim

/-- A row gets another entry, or an entry is replaced. -/
theorem Dated.modify {reqs : List (List ReqSum)} (h : Dated w reqs) {cur : ReqSum}
    (hcur : ∀ pp, cur.pi = some pp → pp.view = w) {g : List ReqSum → List ReqSum}
    (hg : ∀ r, ∀ c ∈ g r, c ∈ r ∨ c = cur) (k : Nat) : Dated w (reqs.modify k g) := by
  intro r hr c hc
  obtain ⟨n, hn⟩ := List.mem_iff_getElem?.1 hr
  rw [List.getElem?_modify] at hn
  obtain ⟨r', hr', heq⟩ := Option.map_eq_some_iff.1 hn
  have hmem := List.mem_of_getElem? hr'
  split at heq
  · subst heq
    rcases hg r' c hc with hc | rfl
    · exact h r' hmem c hc
    · exact hcur
  · subst heq
    exact h r' hmem c hc

theorem Dated.push {reqs : List (List ReqSum)} (h : Dated w reqs) {cur : ReqSum}
    (hcur : ∀ pp, cur.pi = some pp → pp.view = w) (k : Nat) :
    Dated w (reqs.modify k fun r => r ++ [cur]) :=
  h.modify hcur (fun _ _ hc => (List.mem_append.1 hc).imp (fun h => h) List.mem_singleton.1) k

/-- Whatever else occurs, or is heard. -/
theorem Sourced.mono {VC' : ViewChange → Prop} {NV' : NewView → Prop} (h : Sourced cfg id VC NV s)
    (hVC : ∀ vc, VC vc → VC' vc) (hNV : ∀ nv, NV nv → NV' nv) : Sourced cfg id VC' NV' s :=
  { h with
    sent := h.sent
    filed := fun i vc hi => by
      obtain ⟨h1, h2, h3, h4⟩ := h.filed i vc hi
      exact ⟨h1, h2, h3, hVC vc h4⟩
    heard := fun hp nv hnv => by
      obtain ⟨h1, h2⟩ := h.heard hp nv hnv
      exact ⟨hNV nv h1, h2⟩ }

/-! ## Finishing the message -/

theorem pick_eq {nv nv' : NewView} {k : Nat} {n : Int} (h : nv.pick cfg k n = some nv') :
    nv.min ≤ n ∧ nv.vcInfo k ≠ 0 ∧ nv' =
      { nv with picked := Function.update nv.picked (n - nv.min).toNat (NewView.toChar k) } := by
  unfold NewView.pick at h
  split at h
  · rename_i hg
    cases h
    exact ⟨hg.2.2.2.1, hg.2.2.1, rfl⟩
  · cases h

/-- `pickAll` writes the picks of its sequence numbers, and no others. -/
theorem pickAll_picks {is : List Int} {nv nv' : NewView} (hnd : is.Nodup)
    (h : pickAll V s is nv = some nv') :
    nv'.v = nv.v ∧ nv'.min = nv.min ∧ nv'.vcInfo = nv.vcInfo ∧
      (∀ n ∈ is, ∃ j c, s.comp n = some (some j) ∧ s.cell n j = some c ∧
        nv'.picked (n - nv.min).toNat = NewView.toChar c.id ∧ nv.vcInfo c.id ≠ 0) ∧
      ∀ n, nv.min ≤ n → n ∉ is → nv'.picked (n - nv.min).toNat = nv.picked (n - nv.min).toNat := by
  induction is generalizing nv with
  | nil =>
    cases h
    exact ⟨rfl, rfl, rfl, fun _ hn => (List.not_mem_nil hn).elim, fun _ _ _ => rfl⟩
  | cons i is ih =>
    obtain ⟨hi, hnd⟩ := List.nodup_cons.1 hnd
    simp only [pickAll, Option.bind_eq_bind, Option.bind_eq_some_iff] at h
    obtain ⟨o, ho, j, rfl, c, hc, h⟩ := h
    split at h
    · obtain ⟨nv1, h1, h⟩ := Option.bind_eq_some_iff.1 h
      obtain ⟨hle, hne, rfl⟩ := pick_eq h1
      obtain ⟨hv, hmin, hinfo, hpicks, hrest⟩ := ih hnd h
      refine ⟨hv, hmin, hinfo, fun n hn => ?_, fun n hn hmem => ?_⟩
      · rcases List.mem_cons.1 hn with rfl | hn
        · refine ⟨j, c, ho, hc, ?_, hne⟩
          rw [hrest n hle hi]
          exact Function.update_self ..
        · exact hpicks n hn
      · obtain ⟨hni, hmem⟩ := not_or.1 fun hor => hmem (List.mem_cons.2 hor)
        rw [hrest n hn hmem]
        have hslot : (n - nv.min).toNat ≠ (i - nv.min).toNat := by omega
        exact Function.update_of_ne hslot _ _
    · cases h

/-- What `make_new_view` writes. -/
theorem finished_picks {nv : NewView} (h : finished V s = some nv) :
    s.chosenCkpt.isSome = true ∧ ∃ m, s.nv = some m ∧ nv.v = m.v ∧
      nv.vcInfo = m.vcInfo ∧ Finished s nv := by
  simp only [finished, Option.bind_eq_bind, Option.bind_eq_some_iff] at h
  obtain ⟨k, hk, ck, -, m, hm, m1, h1, m2, h2, m3, h3, m4, h4, h⟩ := h
  have h1' : m1 = { m with min := s.min } := by
    unfold NewView.setMin at h1
    split at h1 <;> cases h1
    rfl
  obtain ⟨-, -, h2'⟩ := pick_eq h2
  obtain ⟨hv, hmin, hinfo, hpicks, -⟩ := pickAll_picks (nodup_intRange _ _) h3
  have h4' : m4 = { m3 with max := s.max } := by
    unfold NewView.setMax at h4
    split at h4 <;> cases h4
    rfl
  have hnv : nv = m4 := by
    split at h <;> cases h
    rfl
  subst h1' h2' h4' hnv
  refine ⟨by rw [hk]; rfl, m, hm, hv, hinfo, fun n h1 h2 => ?_⟩
  have hmin : m3.min = s.min := hmin
  have h1 : s.min < n := hmin ▸ h1
  obtain ⟨j, c, hcomp, hcell, hp, hne⟩ := hpicks n (mem_intRange.2 ⟨by omega, h2⟩)
  refine ⟨j, c, hcomp, hcell, ?_, ?_⟩
  · change m3.picked (n - m3.min).toNat = _
    rw [hmin]
    exact hp
  · change m3.vcInfo c.id ≠ 0
    rw [hinfo]
    exact hne

/-! ## The rows of the primary -/

theorem SourcedWith.ne (h : SourcedWith cfg id VC NV F w s) : s.v ≠ 0 := by
  rw [h.v]
  exact h.changed

/-- The rows change, and the entries stay what they are about. -/
theorem SourcedWith.rows (h : SourcedWith cfg id VC NV F w s) (hv : t.v = s.v) (hnv : t.nv = s.nv)
    (hvcs : t.vcOf = s.vcOf) (hsent : t.nvSent = s.nvSent)
    (hcomplete : s.isComplete = true → t.isComplete = true)
    (hcalls : t.calls = s.calls) (hch : t.chosenCkpt = none → s.chosenCkpt = none)
    (hnil : t.chosenCkpt = none → s.reqs = [] → t.reqs = [])
    (hmade : cfg.primary s.v = id → ∀ i j c, t.cell i j = some c → Made cfg.P F i c)
    (hdated : Dated s.v t.reqs) (hkeep : s.nvSent = true → cfg.primary s.v = id → ∀ n j c,
      s.comp n = some (some j) → s.cell n j = some c →
      t.comp n = some (some j) ∧ ∃ c', t.cell n j = some c' ∧ c'.id = c.id) :
        SourcedWith cfg id VC NV F w t where
  zero hz := absurd (hv ▸ hz) h.ne
  filed := by rw [hvcs]; exact h.filed
  heard := by rw [hv, hnv, hvcs]; exact h.heard
  own := by rw [hv, hnv, hvcs]; exact h.own
  empty hp hc := hnil hc (h.empty (hv ▸ hp) (hch hc))
  made hp := by
    rw [hvcs, h.vcs]
    exact hmade (hv ▸ hp)
  dated := by
    rw [hv]
    exact hdated
  sent hs := by
    obtain ⟨hp, hc, hk, nv, hn, hf⟩ := h.sent (hsent ▸ hs)
    refine ⟨by rw [hv]; exact hp, hcomplete hc,
      Option.isSome_iff_ne_none.2 fun he => ?_, nv, by rw [hnv]; exact hn, fun n h1 h2 => ?_⟩
    · rw [hch he] at hk
      cases hk
    · obtain ⟨j, c, hcomp, hcell, hp', hne⟩ := hf n h1 h2
      obtain ⟨hcomp', c', hcell', hid⟩ := hkeep (hsent ▸ hs) hp n j c hcomp hcell
      exact ⟨j, c', hcomp', hcell', by rw [hid]; exact hp', by rw [hid]; exact hne⟩
  calls min d max ms hm := by
    rw [hcalls] at hm
    obtain ⟨h1, h2⟩ := h.calls min d max ms hm
    rw [hv, hnv, hsent]
    exact ⟨hcomplete h1, h2⟩
  vcs := hvcs.trans h.vcs
  v := hv.trans h.v
  changed := h.changed

/-- Fields that `Sourced` does not read. -/
theorem SourcedWith.of_eq (h : SourcedWith cfg id VC NV F w s) (hv : t.v = s.v) (hnv : t.nv = s.nv)
    (hvcs : t.vcOf = s.vcOf) (hsent : t.nvSent = s.nvSent)
    (hcomplete : s.isComplete = true → t.isComplete = true) (hcalls : t.calls = s.calls)
    (hch : t.chosenCkpt = none → s.chosenCkpt = none) (hb : t.base = s.base) (hr : t.reqs = s.reqs)
    (hcomp : t.compReqs = s.compReqs) :
    SourcedWith cfg id VC NV F w t := by
  have hcell : ∀ i j, t.cell i j = s.cell i j := fun i j => by simp only [cell, row, hb, hr]
  refine h.rows hv hnv hvcs hsent hcomplete hcalls hch (fun _ hn => by rw [hr]; exact hn)
    (fun hp i j c hc => ?_)
    (hr ▸ h.dated) fun _ _ n j c h1 h2 => ⟨?_, c, by rw [hcell]; exact h2, rfl⟩
  · rw [← h.vcs]
    exact h.made hp i j c (hcell i j ▸ hc)
  · exact (comp_of_rows hb (by rw [hr]) hcomp n).trans h1

/-- An entry is updated. -/
theorem SourcedWith.setCell (h : SourcedWith cfg id VC NV F w s) {i : Int} {j : Nat}
    {old cur : ReqSum} (hc : s.cell i j = some old) (hv : cur.v = old.v) (hd : cur.d = old.d)
    (hid : cur.id = old.id)
    (hpi : cfg.primary s.v = id → ∀ pp, cur.pi = some pp → pp.digest = cur.d)
    (hdated : ∀ pp, cur.pi = some pp → pp.view = s.v) :
    SourcedWith cfg id VC NV F w (NVInfo.setCell i j cur s) := by
  refine h.rows rfl rfl rfl rfl (fun h => h) rfl (fun h => h)
    (fun _ hn => by simp [NVInfo.setCell, hn]) (fun hp i' j' c hcc => ?_)
    (h.dated.modify hdated (fun _ _ hc => List.mem_or_eq_of_mem_set hc) _)
      fun _ _ n k c h1 h2 => ⟨?_, ?_⟩
  · rw [cell_setCell hc] at hcc
    rw [← h.vcs]
    split at hcc
    · rename_i heq
      cases hcc
      exact (heq.1 ▸ h.made hp i j old hc).of_eq hv hd hid (hpi hp)
    · exact h.made hp i' j' c hcc
  · exact (comp_of_rows (t := NVInfo.setCell i j cur s)
      (s := s) rfl (by simp [NVInfo.setCell]) rfl n).trans h1
  · rw [cell_setCell hc]
    split
    · rename_i heq
      obtain ⟨rfl, rfl⟩ := heq
      rw [hc] at h2
      cases h2
      exact ⟨cur, rfl, hid⟩
    · exact ⟨c, h2, rfl⟩

/-- An entry is added to a row. -/
theorem SourcedWith.push (h : SourcedWith cfg id VC NV F w s) {i : Int} {k : Nat} {r : List ReqSum}
    {cur : ReqSum} (hk : s.row i = some k)
    (hr : s.reqs[k]? = some r) (hmade : cfg.primary s.v = id → Made cfg.P F i cur)
    (hdated : ∀ pp, cur.pi = some pp → pp.view = s.v) :
    SourcedWith cfg id VC NV F w { s with reqs := s.reqs.modify k fun r => r ++ [cur] } := by
  set t : NVInfo := { s with reqs := s.reqs.modify k fun r => r ++ [cur] } with ht
  have hget : ∀ i' j', t.cell i' j' = if i' = i then (r ++ [cur])[j']?
    else s.cell i' j' := fun i' j' =>
    cell_modify (t := t) (g := fun r => r ++ [cur]) hk hr rfl rfl i' j'
  have hold : ∀ j', s.cell i j' = r[j']? := fun j' => by simp [cell, hk, hr]
  refine h.rows rfl rfl rfl rfl (fun h => h) rfl (fun h => h)
    (fun _ hn => by simp [ht, hn]) (fun hp i' j' c hc => ?_)
    (h.dated.push hdated k) fun _ _ n j c h1 h2 => ⟨?_, c, ?_, rfl⟩
  · rw [hget] at hc
    split at hc
    · rename_i heq
      subst heq
      rcases List.mem_append.1 (List.mem_of_getElem? hc) with hmem | hmem
      · obtain ⟨j, hj⟩ := List.mem_iff_getElem?.1 hmem
        rw [← h.vcs]
        exact h.made hp i' j c ((hold j).trans hj)
      · rw [List.mem_singleton.1 hmem]
        exact hmade hp
    · rw [← h.vcs]
      exact h.made hp i' j' c hc
  · exact (comp_of_rows (t := t) (s := s) rfl (by simp [ht]) rfl n).trans h1
  · rw [hget]
    split
    · rename_i heq
      subst heq
      rw [hold] at h2
      rw [List.getElem?_append_left (List.getElem?_eq_some_iff.1 h2).1]
      exact h2
    · exact h2

/-! ## Completing a new view -/

/-- The program keeps where the parts come from, also where it stops. -/
abbrev Traces {α : Type} (V : NVEnv) (VC : ViewChange → Prop) (NV : NewView → Prop)
    (F : Nat → Option ViewChange) (w : Int) (x : Prog NVInfo α) : Prop :=
  Holds (SourcedWith V.cfg V.id VC NV F w) (SourcedWith V.cfg V.id VC NV F w) x

theorem isPrimary_eq : s.isPrimary V = true ↔ V.cfg.primary s.v = V.id := by simp [isPrimary]

theorem SourcedWith.unsent (h : SourcedWith cfg id VC NV F w s) (hi : s.isComplete = false) :
    s.nvSent = false := by
  by_contra hne
  have := (h.sent (by simpa using hne)).2.1
  rw [hi] at this
  cases this

/-- The new view becomes complete. -/
theorem SourcedWith.complete (h : SourcedWith cfg id VC NV F w s) :
    SourcedWith cfg id VC NV F w { s with isComplete := true } :=
  h.of_eq rfl rfl rfl rfl (fun _ => rfl) rfl (fun h => h) rfl rfl rfl

/-- A call of `process_new_view` by an `NV_info` that is complete. -/
theorem SourcedWith.call (h : SourcedWith cfg id VC NV F w s) {min max ms : Int} {d : Digest}
    (hi : s.isComplete = true)
    (hp : cfg.primary s.v = id → s.nvSent = true ∧ ∃ nv, s.nv = some nv ∧ nv.max = max) :
    SourcedWith cfg id VC NV F w { s with calls := s.calls ++ [.processNewView min d max ms] } :=
  { h with
    sent := h.sent
    calls := fun min' d' max' ms' hm => by
      rcases List.mem_append.1 hm with hm | hm
      · exact h.calls min' d' max' ms' hm
      · cases List.mem_singleton.1 hm
        exact ⟨hi, hp⟩ }

theorem SourcedWith.sendStatus (h : SourcedWith cfg id VC NV F w s) :
    SourcedWith cfg id VC NV F w { s with calls := s.calls ++ [.sendStatus] } :=
  { h with
    sent := h.sent
    calls := fun min d max ms hm => by
      rcases List.mem_append.1 hm with hm | hm
      · exact h.calls min d max ms hm
      · cases List.mem_singleton.1 hm }

/-- The message that `make_new_view` writes takes the place of the one before. -/
theorem SourcedWith.finish (h : SourcedWith V.cfg V.id VC NV F w s) (hp : V.cfg.primary s.v = V.id)
    (hi : s.isComplete = true) (hn : s.nvSent = false) {nv : NewView}
    (hnv : finished V s = some nv) :
    SourcedWith V.cfg V.id VC NV F w { s with nv := some nv, nvSent := true } := by
  obtain ⟨hch, m, hm, hv, hinfo, hf⟩ := finished_picks hnv
  refine { h with
    zero := fun hz => absurd hz h.ne
    heard := fun hne => absurd hp hne
    own := fun _ nv' he => ?_
    sent := fun _ => ⟨hp, hi, hch, nv, rfl, hf⟩
    calls := fun min d max ms hc => ?_ }
  · obtain rfl := Option.some.inj he
    obtain ⟨h1, h2⟩ := h.own hp m hm
    rw [hv, hinfo]
    exact ⟨h1, h2⟩
  · have := ((h.calls min d max ms hc).2 hp).1
    rw [hn] at this
    cases this

theorem makeNewView_traces : Traces V VC NV F w (makeNewView V) := by
  intro s hs
  refine Reaches.get_bind (Reaches.assert_bind hs
    fun hg => Reaches.ofOption_bind hs fun nv hnv => Reaches.modify_bind trivial ?_)
  simp only [Bool.and_eq_true, Bool.not_eq_true'] at hg
  have hp := isPrimary_eq.1 hg.1.1
  have hfin := hs.finish hp hg.1.2 hg.2 hnv
  refine Reaches.ofOption_bind hfin fun ks _ => Reaches.ofOption_bind hfin
    fun ck _ => Reaches.modify trivial ?_
  exact hfin.call hg.1.2 fun _ => ⟨rfl, nv, rfl, rfl⟩

theorem finishBackup_traces (hs : SourcedWith V.cfg V.id VC NV F w s) (hi : s.isComplete = true)
    (hp : V.cfg.primary s.v ≠ V.id) :
    Ensures (finishBackup V) s (fun _ t => SourcedWith V.cfg V.id VC NV F w t)
      (SourcedWith V.cfg V.id VC NV F w) := by
  refine Reaches.get_bind (Reaches.ofOption_bind hs
    fun nv _ => Reaches.ofOption_bind hs fun vc _ => Reaches.ofOption_bind hs fun d _ => ?_)
  refine Reaches.assert_bind hs fun _ => Reaches.ofOption_bind hs
    fun ks _ => Reaches.modify trivial ?_
  exact hs.call hi fun h => absurd h hp

theorem finishPrimary_traces : Traces V VC NV F w (finishIf (makeNewView V)) :=
  .get_bind fun _ => .when fun _ => .modify_bind (fun _ hs => hs.complete) makeNewView_traces

theorem finish_traces : Traces V VC NV F w (finish V) := by
  intro s hs
  refine Reaches.get_bind
    (Reaches.when (fun _ => Reaches.modify_bind trivial (Reaches.get_bind ?_)) fun _ => hs)
  refine Reaches.ite (fun _ => makeNewView_traces _ hs.complete)
    fun hp => finishBackup_traces hs.complete rfl fun he => hp ?_
  exact isPrimary_eq.2 he

/-- What `check_comp` finds in the log of the parent has the digest of the entry. -/
theorem fromLog_made (hV : Matching V) {c c' : ReqSum} {i : Int} (h : fromLog V s c i = some c') :
    c'.v = c.v ∧ c'.d = c.d ∧ c'.id = c.id ∧
      ((∀ pp, c.pi = some pp → pp.digest = c.d) → ∀ pp, c'.pi = some pp → pp.digest = c'.d) ∧
      ((∀ pp, c.pi = some pp → pp.view = s.v) → ∀ pp, c'.pi = some pp → pp.view = s.v) := by
  have hlast : ∀ {b : ReqSum}, (some (if b.nPproofs ≤ V.cfg.f &&
    V.prepare i b.d then { b with nPproofs := V.cfg.n } else b)) = some c' →
      c'.v = b.v ∧ c'.d = b.d ∧ c'.id = b.id ∧ c'.pi = b.pi := by
    intro b hb
    cases hb
    split <;> exact ⟨rfl, rfl, rfl, rfl⟩
  simp only [fromLog, Option.bind_eq_bind] at h
  split at h
  · obtain ⟨h1, h2, h3, h4⟩ := hlast h
    exact ⟨h1, h2, h3, fun hc pp hpp => by rw [h2]; exact hc pp (h4 ▸ hpp),
      fun hc pp hpp => hc pp (h4 ▸ hpp)⟩
  · obtain ⟨b, hb, h⟩ := Option.bind_eq_some_iff.1 h
    obtain ⟨h1, h2, h3, h4⟩ := hlast h
    obtain ⟨o, ho, rfl⟩ := Option.map_eq_some_iff.1 hb
    cases o with
    | none =>
      exact ⟨h1, h2, h3, fun hc pp hpp => by rw [h2]; exact hc pp (h4 ▸ hpp),
        fun hc pp hpp => hc pp (h4 ▸ hpp)⟩
    | some opp =>
      refine ⟨h1, h2, h3, fun _ pp hpp => ?_, fun _ pp hpp => ?_⟩
      · rw [h4] at hpp
        cases hpp
        rw [h2]
        exact hV i c.d opp ho
      · rw [h4] at hpp
        cases hpp
        rfl

theorem checkComp_traces (hV : Matching V) (i : Int) (j : Nat) :
    Traces V VC NV F w (checkComp V i j) := by
  intro s hs
  refine Reaches.get_bind (Reaches.assert_bind hs fun hi =>
    Reaches.ofOption_bind hs fun cur hcur => Reaches.ofOption_bind hs fun done hdone => ?_)
  refine Reaches.ite (fun hg => Reaches.ofOption_bind hs fun cur' hcur' => ?_)
    fun _ => finish_traces s hs
  obtain ⟨h1, h2, h3, h4, h5⟩ := fromLog_made hV hcur'
  have hset :=
    hs.setCell hcur h1 h2 h3 (fun hp => h4 (hs.made hp i j cur hcur).pi) (h5 (hs.dated.cell hcur))
  refine Reaches.modify_bind trivial (Reaches.ite (fun _ => ?_) fun _ => Reaches.pure hset)
  -- nothing was sent yet, so that the message does not depend on what is completed here
  have hunsent : s.nvSent = false := hs.unsent (by simpa using hi)
  refine Reaches.modify_bind trivial (finish_traces _
    (hset.rows rfl rfl rfl rfl (fun h => h) rfl (fun h => h) (fun _ h => h) ?_ hset.dated ?_))
  · intro hp i' j' c hc
    have := hset.made hp i' j' c hc
    rw [hset.vcs] at this
    exact this
  · intro hsent
    rw [show (NVInfo.setCell i j cur' s).nvSent = false from hunsent] at hsent
    cases hsent

/-! ## The primary -/

theorem getProofs_entry {c c' : ReqSum} {vc : ViewChange} {i : Int}
    (h : getProofs V c vc i = some c') :
    (c'.v, c'.d, c'.id, c'.pi) = (c.v, c.d, c.id, c.pi) := by
  obtain ⟨n, pp, r, rfl⟩ := getProofs_counts h
  rfl

theorem countReq_entry {c c' : ReqSum} {vc : ViewChange} {i rv : Int} {rd : Digest}
    (h : countReq V vc i rv rd c = some c') :
    (c'.v, c'.d, c'.id, c'.pi) = (c.v, c.d, c.id, c.pi) := by
  unfold countReq at h
  split at h
  · cases h
    rfl
  · obtain ⟨b, hb, rfl⟩ := Option.map_eq_some_iff.1 h
    rw [← getProofs_entry hb]
    split <;> rfl

theorem sumEntry_traces (hV : Matching V) (vc : ViewChange) (i rv : Int) (rd : Digest) (j : Nat) :
    Traces V VC NV F w (sumEntry V vc i rv rd j) := by
  intro s hs
  refine Reaches.get_bind (Reaches.ofOption_bind hs
    fun cur hcur => Reaches.ofOption_bind hs fun cur' hcur' => Reaches.modify_bind trivial ?_)
  have hentry := countReq_entry hcur'
  simp only [Prod.mk.injEq] at hentry
  obtain ⟨h1, h2, h3, h4⟩ := hentry
  have hset := hs.setCell hcur h1 h2 h3
    (fun hp pp hpp => by rw [h2]; exact (hs.made hp i j cur hcur).pi pp (h4 ▸ hpp))
    fun pp hpp => hs.dated.cell hcur pp (h4 ▸ hpp)
  exact Ensures.bind (checkComp_traces hV i j _ hset)
    fun _ t ht => Reaches.get_bind (Reaches.pure ht)

theorem addEntry_traces (hV : Matching V) {vc : ViewChange} {i rv : Int} {rd : Digest}
    (hF : F vc.id = some vc) (hr : vc.req V.cfg.P i = some (rv, rd)) :
    Traces V VC NV F w (addEntry V vc i rv rd) := by
  intro s hs
  refine Reaches.get_bind (Reaches.ofOption_bind hs
    fun k hk => Reaches.ofOption_bind hs fun r hrow => ?_)
  refine Reaches.ofOption_bind hs fun cur hcur => ?_
  have hentry := searchProofs_keeps (fun c => (c.v, c.d, c.id, c.pi)) getProofs_entry hcur
  simp only [Prod.mk.injEq] at hentry
  obtain ⟨h1, h2, h3, h4⟩ := hentry
  have hnone : ∀ {P : PrePrepareMsg → Prop} (pp), cur.pi = some pp → P pp := fun pp hpp => by
    rw [h4] at hpp
    cases hpp
  exact Reaches.modify_bind trivial (checkComp_traces hV i r.length _
    (hs.push hk hrow (fun _ =>
      ⟨⟨vc, by rw [h3]; exact hF, by rw [h1, h2]; exact hr⟩, hnone⟩) hnone))

theorem sumReq_traces (hV : Matching V) {vc : ViewChange} (hF : F vc.id = some vc) (i : Int) :
    Traces V VC NV F w (sumReq V vc i) := by
  intro s hs
  refine Reaches.get_bind (Reaches.ofOption_bind hs
    fun k _ => Reaches.ofOption_bind hs fun r _ => Reaches.ofOption_bind hs fun rd hr => ?_)
  refine Ensures.bind (Holds.eachUntil (fun j => sumEntry_traces hV vc i rd.1 rd.2 j) _ s hs)
    fun done t ht => ?_
  refine Reaches.ite (fun _ => Reaches.pure ht)
    fun _ => Ensures.bind (Q := fun _ t => SourcedWith V.cfg V.id VC NV F w t) ?_
    fun _ u hu => Reaches.pure hu
  exact Reaches.when (fun _ => addEntry_traces hV hF hr t ht) fun _ => ht

theorem summarizeReqs_traces (hV : Matching V) {vc : ViewChange} (hF : F vc.id = some vc) :
    Traces V VC NV F w (summarizeReqs V vc) := by
  refine .get_bind fun s => .assert_bind (fun _ h => h) fun _ => .modify_bind (fun t ht => ?_) ?_
  · refine ht.of_eq rfl rfl (funext fun j => ?_) rfl (fun h => h) rfl (fun h => h) rfl rfl rfl
    by_cases hj : j = vc.id
    · subst hj
      simp [vcOf]
    · simp [vcOf, Function.update_of_ne hj]
  · exact .bind (.eachUntil (fun i => sumReq_traces hV hF i) _) fun _ => .pure

theorem sumVC_traces (hV : Matching V) (i : Nat) : Traces V VC NV F w (sumVC V i) := by
  intro s hs
  refine Reaches.get_bind (Reaches.ite (fun _ => Reaches.ofOption_bind hs fun vc hvc => ?_)
    fun _ => Reaches.pure hs)
  have hid := (hs.filed i vc hvc).1
  refine Ensures.bind (summarizeReqs_traces hV ?_ s hs)
    fun _ t ht => Reaches.get_bind (Reaches.pure ht)
  rw [← hs.vcs, hid]
  exact hvc

/-- The rows for the first choice of a checkpoint. -/
theorem SourcedWith.first (h : SourcedWith cfg id VC NV F w s) (hn : s.chosenCkpt = none)
    (hp : cfg.primary s.v = id) (index : Nat) (cur : CkptSum) :
    SourcedWith cfg id VC NV F w (NVInfo.first index cur s) := by
  have hnil := h.empty hp hn
  have hunsent : s.nvSent = false := by
    by_contra hne
    have := (h.sent (by simpa using hne)).2.2.1
    rw [hn] at this
    cases this
  refine h.rows rfl rfl rfl rfl (fun h => h) rfl (fun _ => hn)
    (fun hc => by cases hc) (fun _ i j c hc => ?_) (h.dated.grow _) fun hs => ?_
  · obtain ⟨k, r, -, hr, hj⟩ := cell_eq_some.1 hc
    have hr : (s.reqs ++ List.replicate _ [])[k]? = some r := hr
    rw [hnil, List.nil_append] at hr
    rw [replicate_nil hr] at hj
    cases hj
  · rw [hunsent] at hs
    cases hs

theorem chooseFirst_traces (hV : Matching V) (index : Nat) (cur : CkptSum)
    (hs : SourcedWith V.cfg V.id VC NV F w s) (hn : s.chosenCkpt = none)
    (hp : V.cfg.primary s.v = V.id) :
    Ensures (chooseFirst V index cur) s (fun _ t => SourcedWith V.cfg V.id VC NV F w t)
      (SourcedWith V.cfg V.id VC NV F w) := by
  refine Reaches.assert_bind hs fun _ => Reaches.modify_bind trivial ?_
  exact Holds.eachUntil (fun i => sumVC_traces hV i) _ _ (hs.first hn hp index cur)

theorem chooseLater_traces (index : Nat) (cur : CkptSum) :
    Traces V VC NV F w (chooseLater index cur) := by
  refine .get_bind fun s => .ofOption_bind (fun _ h => h)
    fun old => .when fun _ => .ofOption_bind (fun _ h => h) fun k => ?_
  exact .modify fun t ht =>
    ht.of_eq rfl rfl rfl rfl (fun h => h) rfl (fun h => by cases h) rfl rfl rfl

theorem chooseCkpt_traces (hV : Matching V) (index : Nat) :
    Traces V VC NV F w (chooseCkpt V index) := by
  intro s hs
  refine Reaches.get_bind (Reaches.assert_bind hs
    fun hp => Reaches.ofOption_bind hs fun cur _ => Reaches.assert_bind hs fun _ => ?_)
  refine Reaches.ite (fun hn => ?_) fun _ => ?_
  · refine Ensures.bind (chooseFirst_traces hV index cur hs (by simpa using hn) (isPrimary_eq.1 hp))
      fun done t ht => ?_
    exact Reaches.ite (fun _ => Reaches.pure ht) fun _ => finishPrimary_traces t ht
  · exact Ensures.bind (chooseLater_traces index cur s hs) fun _ t ht => finishPrimary_traces t ht

theorem sumCkpt_traces (hV : Matching V) (vc : ViewChange) (vclc : Digest) (i : Nat) :
    Traces V VC NV F w (sumCkpt V vc vclc i) := by
  refine .get_bind fun s => .ofOption_bind (fun _ h => h)
    fun cur => .ofOption_bind (fun _ h => h) fun cur' => ?_
  refine .modify_bind (fun t ht => ?_) (.when fun _ => chooseCkpt_traces hV i)
  exact ht.of_eq rfl rfl rfl rfl (fun h => h) rfl (fun h => h) rfl rfl rfl

theorem addCkpt_traces (hV : Matching V) (vc : ViewChange) (vclc : Digest) (before : List CkptSum) :
    Traces V VC NV F w (addCkpt V vc vclc before) := by
  refine .get_bind fun s => .ofOption_bind (fun _ h => h)
    fun n => .modify_bind (fun t ht => ?_) (.when fun _ => chooseCkpt_traces hV _)
  exact ht.of_eq rfl rfl rfl rfl (fun h => h) rfl (fun h => h) rfl rfl rfl

theorem summarize_traces (hV : Matching V) {vc : ViewChange} (hF : F vc.id = some vc) :
    Traces V VC NV F w (summarize V vc) := by
  refine .get_bind fun s => .assert_bind (fun _ h => h)
    fun _ => .ofOption_bind (fun _ h => h) fun c => ?_
  refine .bind (.each (fun i => sumCkpt_traces hV vc _ i) _)
    fun _ => .bind (.when fun _ => addCkpt_traces hV vc _ _) fun _ => ?_
  refine .get_bind fun t => .when fun _ => .bind (summarizeReqs_traces hV hF)
    fun _ => .modify fun u hu => hu.sendStatus

/-- The message names one more view-change. -/
theorem SourcedWith.name (h : SourcedWith cfg id VC NV F w s) (hp : cfg.primary s.v = id)
    {m m' : NewView} {vc : ViewChange} (hm : s.nv = some m) (hF : F vc.id = some vc)
    (ha : m.addViewChange cfg vc.id (cfg.vcDigest vc) = some m') :
    SourcedWith cfg id VC NV F w { s with nv := some m' } := by
  obtain ⟨hz, rfl⟩ : m.vcInfo vc.id = 0 ∧
    m' = { m with vcInfo := Function.update m.vcInfo vc.id (cfg.vcDigest vc) } := by
    unfold NewView.addViewChange at ha
    split at ha
    · rename_i hg
      cases ha
      exact ⟨hg.2, rfl⟩
    · cases ha
  refine { h with
    zero := fun hz => absurd hz h.ne
    heard := fun hne => absurd hp hne
    own := fun _ nv he => ?_
    sent := fun hs => ?_
    calls := fun min d max ms hc => ?_ }
  · obtain rfl := Option.some.inj he
    obtain ⟨hv, hown⟩ := h.own hp m hm
    refine ⟨hv, fun i hi => ?_⟩
    by_cases he : i = vc.id
    · subst he
      exact ⟨vc, by rw [← hF, ← h.vcs]; rfl, Function.update_self ..⟩
    · have hold : Function.update m.vcInfo vc.id (cfg.vcDigest vc) i = m.vcInfo i :=
        Function.update_of_ne he _ _
      obtain ⟨vc', hvc', hd⟩ := hown i (hold ▸ hi)
      exact ⟨vc', hvc', hold.trans hd⟩
  · obtain ⟨h1, h2, h3, nv, hnv, hf⟩ := h.sent hs
    obtain rfl := Option.some.inj (hm.symm.trans hnv)
    refine ⟨h1, h2, h3, _, rfl, fun n hlo hhi => ?_⟩
    obtain ⟨j, c, hcomp, hcell, hpick, hne⟩ := hf n hlo hhi
    refine ⟨j, c, hcomp, hcell, hpick, ?_⟩
    have hid : c.id ≠ vc.id := fun he => hne (he ▸ hz)
    change Function.update m.vcInfo vc.id _ c.id ≠ 0
    rw [Function.update_of_ne hid]
    exact hne
  · obtain ⟨h1, h2⟩ := h.calls min d max ms hc
    refine ⟨h1, fun hp => ?_⟩
    obtain ⟨h3, nv, hnv, hmax⟩ := h2 hp
    obtain rfl := Option.some.inj (hm.symm.trans hnv)
    exact ⟨h3, _, rfl, hmax⟩

theorem addToNewView_traces (hV : Matching V) {vc : ViewChange} (hF : F vc.id = some vc)
    (hs : SourcedWith V.cfg V.id VC NV F w s) (hp : V.cfg.primary s.v = V.id) :
    Ensures (addToNewView V vc) s (fun _ t => SourcedWith V.cfg V.id VC NV F w t)
      (SourcedWith V.cfg V.id VC NV F w) := by
  refine Reaches.get_bind (Reaches.ofOption_bind hs
    fun nv hnv => Reaches.modify_bind trivial (summarize_traces hV hF _ ?_))
  obtain ⟨m, hm, ha⟩ := Option.bind_eq_some_iff.1 hnv
  exact hs.name hp hm hF ha

/-! ## The backup -/

/-- At a backup only the message, the view-changes and the calls matter. -/
theorem SourcedWith.backup (h : SourcedWith cfg id VC NV F w s) (hp : cfg.primary s.v ≠ id)
    (hv : t.v = s.v) (hnv : t.nv = s.nv) (hvcs : t.vcOf = s.vcOf) (hsent : t.nvSent = s.nvSent)
    (hcomplete : s.isComplete = true → t.isComplete = true) (hcalls : t.calls = s.calls)
    (hdated : Dated s.v t.reqs) : SourcedWith cfg id VC NV F w t where
  zero hz := absurd (hv ▸ hz) h.ne
  filed := by rw [hvcs]; exact h.filed
  heard := by rw [hv, hnv, hvcs]; exact h.heard
  own he := absurd (hv ▸ he) hp
  dated := by
    rw [hv]
    exact hdated
  empty he := absurd (hv ▸ he) hp
  made he := absurd (hv ▸ he) hp
  sent hs := absurd (h.sent (hsent ▸ hs)).1 hp
  calls min d max ms hm := by
    rw [hcalls] at hm
    exact ⟨hcomplete (h.calls min d max ms hm).1, fun he => absurd (hv ▸ he) hp⟩
  vcs := hvcs.trans h.vcs
  v := hv.trans h.v
  changed := h.changed

/-- `check_new_view` counts for an entry, and leaves its pre-prepare alone. -/
theorem reqEvidence_pi {c c' : ReqSum} {i : Int} (h : reqEvidence V s i c = some c') :
    c'.pi = c.pi := by
  unfold reqEvidence at h
  generalize List.range V.cfg.n = l at h
  induction l generalizing c with
  | nil =>
    cases h
    rfl
  | cons j l ih =>
    simp only [List.foldlM_cons, Option.bind_eq_bind, Option.bind_eq_some_iff] at h
    obtain ⟨b, hb, hl⟩ := h
    rw [ih hl]
    split at hb
    · simp only [Option.bind_eq_some_iff] at hb
      obtain ⟨a, ha, r, -, heq⟩ := hb
      have hentry := getProofs_entry ha
      simp only [Prod.mk.injEq] at hentry
      cases heq
      rw [← hentry.2.2.2]
      split <;> rfl
    · cases hb
      rfl

theorem checkReq_traces (hV : Matching V) (hp : V.cfg.primary w ≠ V.id) (i : Int) :
    Traces V VC NV F w (checkReq V i) := by
  refine .get_bind fun s => .ofOption_bind (fun _ h => h)
    fun vc => .ite (fun _ => .pure) fun _ => ?_
  refine .ofOption_bind (fun _ h => h) fun k => .ofOption_bind (fun _ h => h)
    fun r t ht => Reaches.ofOption_bind ht fun cur hcur => ?_
  have hnone : ∀ pp, cur.pi = some pp → pp.view = t.v := fun pp hpp => by
    rw [reqEvidence_pi hcur] at hpp
    cases hpp
  refine Reaches.modify_bind trivial ?_
  have hpush := ht.backup (t := { t with reqs := t.reqs.modify k fun r => r ++ [cur] })
    (by rw [ht.v]; exact hp) rfl rfl rfl rfl (fun h => h) rfl
    (ht.dated.push hnone k)
  exact Reaches.ite (fun _ => Ensures.bind (checkComp_traces hV i 0 _ hpush)
    fun _ u hu => Reaches.pure hu) fun _ => Reaches.pure hpush

theorem checkReqs_traces (hV : Matching V) (hp : V.cfg.primary w ≠ V.id) (nv : NewView) :
    Traces V VC NV F w (checkReqs V nv) := by
  refine .modify_bind (fun t ht => ht.backup (by rw [ht.v]; exact hp)
    rfl rfl rfl rfl (fun h => h) rfl (ht.dated.grow _)) (.get_bind fun s => ?_)
  exact .bind (.eachUntil (fun i => checkReq_traces hV hp i) _) fun _ => .pure

theorem checkNone_traces (hp : V.cfg.primary w ≠ V.id) (d : Digest) (nv : NewView) :
    Traces V VC NV F w (checkNone V d nv) := by
  intro s hs
  have hcomplete := hs.complete
  refine Reaches.modify_bind trivial (Reaches.get_bind (Reaches.ofOption_bind hcomplete
    fun ks _ => Reaches.modify_bind trivial (Reaches.pure ?_)))
  exact hcomplete.call rfl fun he => absurd he (by rw [hcomplete.v]; exact hp)

theorem checkMax_traces (hV : Matching V) (hp : V.cfg.primary w ≠ V.id) (d : Digest)
    (nv : NewView) :
    Traces V VC NV F w (checkMax V d nv) := by
  refine .get_bind fun s => .ite (fun _ => .pure)
    fun _ => .modify_bind (fun t ht => ?_) (.ite (fun _ => ?_) fun _ => ?_)
  · exact ht.backup (by rw [ht.v]; exact hp) rfl rfl rfl rfl (fun h => h) rfl ht.dated
  · exact checkNone_traces hp d nv
  · exact checkReqs_traces hV hp nv

theorem checkNewView_traces (hV : Matching V) (hp : V.cfg.primary w ≠ V.id) :
    Traces V VC NV F w (checkNewView V) := by
  have hkeep : ∀ {g : NVInfo → NVInfo},
    (∀ t, (g t).v = t.v ∧ (g t).nv = t.nv ∧ (g t).vcOf = t.vcOf ∧ (g t).nvSent = t.nvSent ∧
      (g t).isComplete = t.isComplete ∧ (g t).calls = t.calls ∧ (g t).reqs = t.reqs) → ∀ t,
        SourcedWith V.cfg V.id VC NV F w t →
      SourcedWith V.cfg V.id VC NV F w (g t) := by
    intro g hg t ht
    obtain ⟨h1, h2, h3, h4, h5, h6, h7⟩ := hg t
    exact ht.backup (by rw [ht.v]; exact hp) h1 h2 h3 h4 (fun h => h5.trans h) h6 (h7 ▸ ht.dated)
  refine .get_bind fun s => .assert_bind (fun _ h => h)
    fun _ => .ofOption_bind (fun _ h => h) fun nv => .ofOption_bind (fun _ h => h) fun cid => ?_
  refine .ofOption_bind (fun _ h => h) fun vc => .modify_bind (hkeep
    fun _ => ⟨rfl, rfl, rfl, rfl, rfl, rfl, rfl⟩) (.ite (fun _ => .pure) fun _ => ?_)
  refine .modify_bind (hkeep fun _ => ⟨rfl, rfl, rfl, rfl, rfl, rfl, rfl⟩)
    (.ofOption_bind (fun _ h => h) fun c => ?_)
  cases c with
  | none => exact .pure
  | some d =>
    refine .get_bind fun s => .ofOption_bind (fun _ h => h)
      fun e => .ite (fun _ => .pure) fun _ => ?_
    exact .modify_bind (hkeep fun _ => ⟨rfl, rfl, rfl, rfl, rfl, rfl, rfl⟩)
      (checkMax_traces hV hp d nv)

/-! ## Operations -/

/-- The operation keeps where the parts come from, and a complete `NV_info` its message, also where
it stops. -/
abbrev Roots {α : Type} (V : NVEnv) (VC : ViewChange → Prop) (NV : NewView → Prop)
    (x : Prog NVInfo α) (s : NVInfo) : Prop :=
  Within (fun s t => Sourced V.cfg V.id VC NV t ∧ Frozen s t)
    (fun s t => Sourced V.cfg V.id VC NV t ∧ Frozen s t) x s

theorem Frozen.refl : Frozen s s := fun h => ⟨h, rfl, rfl, rfl⟩

theorem Frozen.of_eq (hi : s.isComplete = true → t.isComplete = true) (hv : t.v = s.v)
    (hnv : t.nv = s.nv) (hsent : t.nvSent = s.nvSent) :
    Frozen s t := fun h => ⟨hi h, hv, hnv, hsent⟩

theorem Frozen.of_incomplete (hi : s.isComplete = false) : Frozen s t := fun h => by
  rw [hi] at h
  cases h

theorem Sourced.within (h : Sourced cfg id VC NV s) (hv : s.v ≠ 0) :
    SourcedWith cfg id VC NV s.vcOf s.v s := ⟨h, rfl, rfl, hv⟩

theorem Sourced.stay (h : Sourced cfg id VC NV s) : Sourced cfg id VC NV s ∧ Frozen s s :=
  ⟨h, .refl⟩

theorem Sourced.ne_of_nv (h : Sourced cfg id VC NV s) {nv : NewView} (hnv : s.nv = some nv) :
    s.v ≠ 0 := fun hz => by
  rw [(h.zero hz).1] at hnv
  cases hnv

theorem Sourced.ne_of_cell (h : Sourced cfg id VC NV s) {i : Int} {j : Nat} {c : ReqSum}
    (hc : s.cell i j = some c) : s.v ≠ 0 := fun hz => by
  obtain ⟨k, r, -, hr, -⟩ := cell_eq_some.1 hc
  rw [(h.zero hz).2.2.1] at hr
  cases hr

/-- An operation on an `NV_info` that is not complete. -/
theorem roots_of_traces {α : Type} {x : Prog NVInfo α} (hi : s.isComplete = false)
    (hx : Ensures x t (fun _ u => SourcedWith V.cfg V.id VC NV F w u)
      (SourcedWith V.cfg V.id VC NV F w)) :
    Ensures x t (fun _ u => Sourced V.cfg V.id VC NV u ∧ Frozen s u)
      fun u => Sourced V.cfg V.id VC NV u ∧ Frozen s u :=
  hx.imp (fun _ _ hu => ⟨hu.toSourced, .of_incomplete hi⟩)
    fun _ hu => ⟨hu.toSourced, .of_incomplete hi⟩

/-- `check_comp` stops on a complete new view. -/
theorem checkComp_complete (hi : s.isComplete = true) (i : Int) (j : Nat) :
    Ensures (checkComp V i j) s (fun _ t => t = s) (fun t => t = s) :=
  Reaches.get_bind (Reaches.assert_bind rfl fun h => by rw [hi] at h; cases h)

/-- An entry is updated and checked. -/
theorem checkCell_roots (hV : Matching V) (hs : Sourced V.cfg V.id VC NV s) {i : Int} {j : Nat}
    {old cur : ReqSum} (hc : s.cell i j = some old) (hv : cur.v = old.v) (hd : cur.d = old.d)
    (hid : cur.id = old.id)
    (hpi : V.cfg.primary s.v = V.id → ∀ pp, cur.pi = some pp → pp.digest = cur.d)
    (hdated : ∀ pp, cur.pi = some pp → pp.view = s.v) :
    Ensures (do modify (NVInfo.setCell i j cur); checkComp V i j)
      s (fun _ t => Sourced V.cfg V.id VC NV t ∧ Frozen s t)
      fun t => Sourced V.cfg V.id VC NV t ∧ Frozen s t := by
  have hset := (hs.within (hs.ne_of_cell hc)).setCell hc hv hd hid hpi hdated
  refine Reaches.modify_bind trivial ?_
  cases hi : s.isComplete with
  | true =>
    have hfix : Sourced V.cfg V.id VC NV (NVInfo.setCell i j cur s) ∧
      Frozen s (NVInfo.setCell i j cur s) :=
      ⟨hset.toSourced, .of_eq (fun h => h) rfl rfl rfl⟩
    exact (checkComp_complete (s := NVInfo.setCell i j cur s) hi i j).imp (fun _ t ht => ht ▸ hfix)
      fun t ht => ht ▸ hfix
  | false => exact roots_of_traces hi (checkComp_traces hV i j _ hset)

theorem addMissing_roots (hV : Matching V) (hs : Sourced V.cfg V.id VC NV s) (pp : PrePrepareMsg)
    (digestOk : Bool) :
    Roots V VC NV (addMissing V pp digestOk) s := by
  refine Reaches.get_bind (Reaches.ofOption_bind hs.stay
    fun o _ => Reaches.when (fun _ => ?_) fun _ => hs.stay)
  refine Reaches.ofOption_bind hs.stay fun r hr => ?_
  cases hj : r.findIdx? fun cur => cur.d == pp.digest with
  | none => exact Reaches.pure hs.stay
  | some j =>
    refine Reaches.ofOption_bind hs.stay fun cur hcur => Reaches.when (fun _ => ?_) fun _ => hs.stay
    refine checkCell_roots hV hs hcur rfl rfl rfl (fun _ pp' hpp' => ?_) fun pp' hpp' => by
      cases hpp'
      rfl
    cases hpp'
    -- the entry was found by the digest
    obtain ⟨k, hk, hrow⟩ := Option.bind_eq_some_iff.1 hr
    obtain ⟨hlt, hd, -⟩ := List.findIdx?_eq_some_iff_getElem.1 hj
    have hget : r[j]? = some cur := by
      rw [← hcur]
      simp [cell, hk, hrow]
    have hcur' : r[j] = cur := Option.some.inj ((List.getElem?_eq_getElem hlt).symm.trans hget)
    rw [hcur'] at hd
    exact (beq_iff_eq.1 hd).symm

theorem addMissingPrepare_roots (hV : Matching V) (hs : Sourced V.cfg V.id VC NV s) (p : Prepare) :
    Roots V VC NV (addMissingPrepare V p) s := by
  refine Reaches.get_bind (Reaches.ofOption_bind hs.stay
    fun o _ => Reaches.when (fun _ => ?_) fun _ => hs.stay)
  refine Reaches.ofOption_bind hs.stay fun r hr => ?_
  cases r.findIdx? fun cur => cur.d == p.digest with
  | none => exact Reaches.pure hs.stay
  | some j =>
    refine Reaches.ofOption_bind hs.stay fun cur hcur =>
      Reaches.when (fun _ => Reaches.assert_bind hs.stay fun _ => ?_) fun _ => hs.stay
    refine Reaches.when (fun _ => ?_) fun _ => hs.stay
    exact checkCell_roots hV hs hcur rfl rfl rfl (fun hp pp hpp =>
      (hs.made hp p.seqno j cur hcur).pi pp hpp)
      fun pp hpp => hs.dated.cell hcur pp hpp

theorem markStable_roots (hs : Sourced V.cfg V.id VC NV s) (ls : Int) :
    Roots V VC NV (markStable V ls) s := by
  refine Reaches.get_bind (Reaches.when (fun hg =>
    Reaches.modify_bind trivial (Reaches.modify trivial ?_)) fun _ => hs.stay)
  simp only [Bool.and_eq_true, decide_eq_true_eq, Bool.not_eq_true'] at hg
  obtain ⟨⟨⟨⟨hpos, hi⟩, -⟩, -⟩, hp⟩ := hg
  have hcomplete := (hs.within (by omega)).complete
  refine ⟨(hcomplete.call rfl fun he => ?_).toSourced, .of_incomplete hi⟩
  rw [show s.isPrimary V = true from isPrimary_eq.2 he] at hp
  cases hp

/-- One more view-change is filed. -/
theorem Sourced.store (hs : Sourced cfg id VC NV s) (hne : s.v ≠ 0) {m : ViewChange} (hm : VC m)
    (hlt : m.id < cfg.n) (hv : m.v = s.v) (hnone : s.vcOf m.id = none)
    (hnamed : cfg.primary s.v ≠ id → names ⟨cfg, id, V.prePrepare, V.prepare⟩ s m = some true) :
    SourcedWith cfg id VC NV (Function.update s.vcOf m.id (some m)) s.v (s.store m) := by
  have hvcs : (s.store m).vcOf = Function.update s.vcOf m.id (some m) := by
    funext j
    by_cases hj : j = m.id
    · subst hj
      simp [NVInfo.store, vcOf]
    · simp [NVInfo.store, vcOf, Function.update_of_ne hj]
  have hold : ∀ {i vc}, s.vcOf i = some vc → Function.update s.vcOf m.id (some m) i = some vc := by
    intro i vc hi
    have hne : i ≠ m.id := fun he => by
      rw [he, hnone] at hi
      cases hi
    rw [Function.update_of_ne hne, hi]
  refine ⟨⟨fun hz => absurd hz hne, fun i vc hi => ?_, fun hp nv hnv =>
    ?_, fun hp nv hnv => ?_, hs.empty, fun hp i j c hc => ?_, hs.dated, hs.sent, hs.calls⟩,
    hvcs, rfl, hne⟩
  · rw [hvcs] at hi
    by_cases he : i = m.id
    · subst he
      rw [Function.update_self] at hi
      cases hi
      exact ⟨rfl, hlt, hv ▸ hne, hm⟩
    · rw [Function.update_of_ne he] at hi
      exact hs.filed i vc hi
  · obtain ⟨h1, h2, h3⟩ := hs.heard hp nv hnv
    refine ⟨h1, h2, fun i vc hi => ?_⟩
    rw [hvcs] at hi
    by_cases he : i = m.id
    · subst he
      rw [Function.update_self] at hi
      cases hi
      have hn := hnamed hp
      have hnv : s.nv = some nv := hnv
      simp only [names, hnv, Option.bind_eq_bind, Option.bind_some,
        Option.some.injEq, beq_iff_eq] at hn
      unfold NewView.viewChange at hn
      split at hn
      · exact Option.some.inj hn
      · cases hn
    · rw [Function.update_of_ne he] at hi
      exact h3 i vc hi
  · obtain ⟨h1, h2⟩ := hs.own hp nv hnv
    refine ⟨h1, fun i hi => ?_⟩
    obtain ⟨vc, hvc, hd⟩ := h2 i hi
    exact ⟨vc, by rw [hvcs]; exact hold hvc, hd⟩
  · obtain ⟨⟨vc, hvc, hr⟩, hpi⟩ := hs.made hp i j c hc
    exact ⟨⟨vc, by rw [hvcs]; exact hold hvc, hr⟩, hpi⟩

theorem stored_traces (hV : Matching V) {m : ViewChange} (hF : F m.id = some m) :
    Traces V VC NV F w (stored V m) := by
  intro s hs
  refine Reaches.get_bind (Reaches.ite (fun hp => ?_) fun hp => ?_)
  · exact Reaches.when (fun _ => addToNewView_traces hV hF hs (isPrimary_eq.1 hp)) fun _ => hs
  · refine Reaches.when (fun _ => Ensures.bind (checkNewView_traces hV ?_ s hs)
      fun _ t ht => Reaches.pure ht) fun _ => hs
    exact fun he => hp (isPrimary_eq.2 (hs.v ▸ he))

theorem addViewChange_roots (hV : Matching V) (hs : Sourced V.cfg V.id VC NV s) {m : ViewChange}
    {verified : Bool} (digestOk : Bool) (hm : VC m) (hver : verified = true → m.v = s.v → s.v ≠ 0) :
    Roots V VC NV (addViewChange V m verified digestOk) s := by
  refine Reaches.get_bind (Reaches.assert_bind hs.stay
    fun hg => Reaches.ite (fun _ => Reaches.pure hs.stay) fun hnew => ?_)
  simp only [Bool.and_eq_true, beq_iff_eq, decide_eq_true_eq] at hg
  obtain ⟨hnone, hi⟩ : s.vcOf m.id = none ∧ s.isComplete = false := by simpa using hnew
  refine Reaches.ofOption_bind hs.stay fun named hnamed =>
    Reaches.ite (fun _ => Reaches.pure hs.stay) fun hn => ?_
  refine Reaches.ite (fun _ => Reaches.pure hs.stay) fun hok => Reaches.modify_bind trivial ?_
  have hn : named = true := by simpa using hn
  subst hn
  have hnamed' : V.cfg.primary s.v ≠ V.id → names V s m = some true := by
    intro hp
    have hp : s.isPrimary V = false := by simpa [isPrimary] using hp
    rw [hp] at hnamed
    exact hnamed
  have hne : s.v ≠ 0 := by
    intro hz
    by_cases hp : V.cfg.primary s.v = V.id
    · have hp : s.isPrimary V = true := isPrimary_eq.2 hp
      cases verified with
      | true => exact hver rfl hg.1 hz
      | false => simp [hp] at hok
    · have := hnamed' hp
      rw [names, (hs.zero hz).1] at this
      cases this
  refine roots_of_traces hi (Ensures.bind (stored_traces
    hV (Function.update_self ..) (s.store m) (hs.store (V := V) hne hm hg.2 hg.1 hnone hnamed'))
    fun _ t ht => Reaches.pure ht)

theorem addAck_roots (hV : Matching V) (hs : Sourced V.cfg V.id VC NV s) (m : ViewChangeAck) :
    Roots V VC NV (addAck V m) s := by
  refine Reaches.get_bind (Reaches.assert_bind hs.stay
    fun _ => Reaches.ite (fun _ => Reaches.pure hs.stay) fun hi => ?_)
  have hi : s.isComplete = false := by simpa using hi
  refine Reaches.ofOption_bind hs.stay fun nv hnv => ?_
  have hin := hs.within (hs.ne_of_nv hnv)
  have hcount : SourcedWith V.cfg V.id VC NV s.vcOf s.v
    { s with vcs := Function.update s.vcs m.vcid (VCInfo.ack (s.vcs m.vcid) m.id) } := by
    refine hin.of_eq rfl rfl (funext fun j => ?_) rfl (fun h => h) rfl (fun h => h) rfl rfl rfl
    by_cases hj : j = m.vcid
    · subst hj
      simp [vcOf, VCInfo.ack]
    · simp [vcOf, Function.update_of_ne hj]
  cases ackDigest V s nv m.vcid with
  | none => exact Reaches.pure hs.stay
  | some d =>
    refine roots_of_traces hi (Ensures.bind (Q := fun _ t =>
      SourcedWith V.cfg V.id VC NV s.vcOf s.v t) ?_ fun _ t ht => Reaches.pure ht)
    refine Reaches.when (fun _ => Reaches.modify_bind trivial
      (Reaches.get_bind (Reaches.when (fun hg => ?_) fun _ => hcount))) fun _ => hin
    refine Reaches.ofOption_bind hcount fun vc hvc => ?_
    simp only [Bool.and_eq_true] at hg
    refine addToNewView_traces hV ?_ hcount (isPrimary_eq.1 hg.2)
    have hid := (hcount.filed m.vcid vc hvc).1
    rw [← hcount.vcs, hid]
    exact hvc

theorem sourced_clear (hc : s.calls = []) : Sourced cfg id VC NV s.clear where
  zero _ := ⟨rfl, fun _ => rfl, rfl, rfl⟩
  filed _ _ h := by cases h
  heard _ _ h := by cases h
  own _ _ h := by cases h
  empty _ _ := rfl
  made _ i j c h := by
    obtain ⟨k, r, -, hr, -⟩ := cell_eq_some.1 h
    cases hr
  dated := dated_nil
  sent h := by cases h
  calls min d max ms h := by
    rw [show s.clear.calls = [] from hc] at h
    cases h

theorem addNewView_sourced (hs : Sourced V.cfg V.id VC NV s) (hc : s.calls = []) {m : NewView}
    (hpos : 0 < m.v) (hb : V.cfg.primary m.v ≠ V.id → NV m)
    (hp : V.cfg.primary m.v = V.id → ∀ i, m.vcInfo i = 0) :
    Ensures (addNewView V m) s (fun _ t => Sourced V.cfg V.id VC NV t ∧ (m.v ≤ s.v ∨ t.v = m.v))
      (Sourced V.cfg V.id VC NV) := by
  refine Reaches.get_bind (Reaches.ite (fun hle => Reaches.pure ⟨hs, .inl hle⟩) fun _ => ?_)
  refine Ensures.bind (Q := fun _ t => Sourced V.cfg V.id VC NV t ∧ t.v = 0 ∧ t.calls = [])
    (Reaches.when (fun _ => ?_) fun hz => ?_)
    fun _ t ht => Reaches.modify_bind trivial (Reaches.pure ⟨?_, .inr rfl⟩)
  · exact Reaches.modify trivial ⟨sourced_clear hc, rfl, hc⟩
  · exact ⟨hs, by simpa using hz, hc⟩
  · obtain ⟨ht, hv, hcalls⟩ := ht
    obtain ⟨-, hvcs, hreqs, hi⟩ := ht.zero hv
    refine ⟨fun hz => absurd hz (by change m.v ≠ 0; omega),
      fun i vc h => ?_, fun hne nv h => ?_, fun he nv h => ?_, fun _ _ => hreqs,
      fun _ i j c h => ?_, by
        change Dated _ t.reqs
        rw [hreqs]
        exact dated_nil, fun h => ?_, fun min d max ms h => ?_⟩
    · have h : t.vcOf i = some vc := h
      rw [hvcs i] at h
      cases h
    · obtain rfl := Option.some.inj h
      refine ⟨hb hne, rfl, fun i vc h => ?_⟩
      have h : t.vcOf i = some vc := h
      rw [hvcs i] at h
      cases h
    · obtain rfl := Option.some.inj h
      exact ⟨rfl, fun i hi => absurd (hp he i) hi⟩
    · obtain ⟨k, r, -, hr, -⟩ := cell_eq_some.1 h
      have hr : t.reqs[k]? = some r := hr
      rw [hreqs] at hr
      cases hr
    · have := (ht.sent h).2.1
      rw [hi] at this
      cases this
    · have h : NVCall.processNewView min d max ms ∈ t.calls := h
      rw [hcalls] at h
      cases h

theorem markStale_roots (hV : Matching V) (hs : Sourced V.cfg V.id VC NV s) (hc : s.calls = []) :
    Ensures (markStale V) s (fun r t => (Sourced V.cfg V.id VC NV t ∧ Frozen s t) ∧ ∀ vc,
        r = some vc → vc.id = V.id ∧ vc.v ≠ 0 ∧ VC vc)
      fun t => Sourced V.cfg V.id VC NV t ∧ Frozen s t := by
  refine Reaches.get_bind (Reaches.ite (fun _ => Reaches.pure ⟨hs.stay, nofun⟩)
    fun hi => Reaches.modify_bind trivial ?_)
  have hi : s.isComplete = false := by simpa using hi
  have hclear : Sourced V.cfg V.id VC NV s.clear := sourced_clear hc
  have hstop : ∀ t, Sourced V.cfg V.id VC NV t → Sourced V.cfg V.id VC NV t ∧ Frozen s t :=
    fun t ht => ⟨ht, .of_incomplete hi⟩
  refine Reaches.ite (fun hp => ?_) fun _ => Reaches.pure ⟨hstop _ hclear,
    fun vc hvc => ⟨(hs.filed V.id vc hvc).1, (hs.filed V.id vc hvc).2.2⟩⟩
  refine Ensures.bind (Q := fun _ t => Sourced V.cfg V.id VC NV t) ?_
    fun _ t ht => Reaches.pure ⟨hstop t ht, nofun⟩
  refine Ensures.imp (E := Sourced V.cfg V.id VC NV) ?_ (fun _ _ h => h) hstop
  have hnew := addNewView_sourced hclear hc (m := NewView.new s.v)
    hp.1 (fun hne => absurd hp.2 hne) fun _ _ => rfl
  refine Ensures.bind hnew fun _ t ht => Reaches.ofOption_bind ht.1 fun vc hvc => ?_
  have hv : t.v ≠ 0 := by
    have hz : s.clear.v = 0 := rfl
    have hm : (NewView.new s.v).v = s.v := rfl
    omega
  refine Ensures.bind (Q := fun _ u => Sourced V.cfg V.id VC NV u) ?_ fun _ u hu => Reaches.pure hu
  exact (addViewChange_roots hV ht.1 true (hs.filed V.id vc hvc).2.2.2
    fun _ _ => hv).imp (fun _ _ hu => hu.1) fun _ hu => hu.1

/-! ## Fetching a request -/

theorem toChar_nonneg {i : Nat} (hi : i < 256) (h : 0 ≤ NewView.toChar i) :
    (NewView.toChar i).toNat = i := by
  unfold NewView.toChar at h ⊢
  rw [Int.bmod_def] at h ⊢
  split at h <;> omega

/-- The entry that the message of the primary picks for a sequence number. -/
theorem Sourced.picked (hs : Sourced cfg id VC NV s) (hn : cfg.n ≤ 256) (hsent : s.nvSent = true)
    {nv : NewView} (hnv : s.nv = some nv) {n : Int} (hlo : nv.min < n) (hhi : n < nv.max) {i : Nat}
    (hi : nv.picked (n - nv.min).toNat = (i : Int)) :
    ∃ j c, s.comp n = some (some j) ∧ s.cell n j = some c ∧ c.id = i ∧ nv.vcInfo i ≠ 0 := by
  obtain ⟨hp, -, -, m, hm, hf⟩ := hs.sent hsent
  obtain rfl := Option.some.inj (hm.symm.trans hnv)
  obtain ⟨j, c, hcomp, hcell, hpick, hne⟩ := hf n hlo hhi
  obtain ⟨⟨vc, hvc, -⟩, -⟩ := hs.made hp n j c hcell
  have hlt := (hs.filed c.id vc hvc).2.1
  have hid := toChar_nonneg (i := c.id) (by omega) (by rw [← hpick, hi]; exact Int.natCast_nonneg i)
  rw [← hpick, hi, Int.toNat_natCast] at hid
  exact ⟨j, c, hcomp, hcell, hid.symm, hid ▸ hne⟩

/-- **What `fetch_request` returns**: the digest that the message picks, and a pre-prepare of the
view, at the primary with this digest. -/
theorem fetchRequest_picks (hs : Sourced V.cfg V.id VC NV s) (hn : V.cfg.n ≤ 256)
    (hsent : V.cfg.primary s.v = V.id → s.nvSent = true) (n : Int) :
    Ensures (fetchRequest V n) s
      (fun r t => (Sourced V.cfg V.id VC NV t ∧ Frozen s t) ∧ ∃ nv,
          s.nv = some nv ∧ nv.Picks V.cfg VC n r.2 ∧
        (V.cfg.primary s.v = V.id → r.1.digest = r.2) ∧ r.1.view = s.v)
      (fun t => Sourced V.cfg V.id VC NV t ∧ Frozen s t) := by
  refine Reaches.get_bind (Reaches.ofOption_bind hs.stay
    fun nv hnv => Reaches.assert_bind hs.stay fun hg => ?_)
  simp only [Bool.and_eq_true, decide_eq_true_eq] at hg
  obtain ⟨hi, hlo, hhi⟩ := hg
  refine Reaches.ofOption_bind hs.stay fun vc hvc => Reaches.ofOption_bind hs.stay fun r hr => ?_
  simp only [pickedVC, hnv, Option.bind_eq_bind, Option.bind_some, Option.bind_eq_some_iff] at hvc
  obtain ⟨k, hk, hvc⟩ := hvc
  split at hvc
  case isFalse => cases hvc
  rename_i hk0
  obtain ⟨i, rfl⟩ := Int.eq_ofNat_of_zero_le hk0
  have hvc : s.vcOf i = some vc := hvc
  have hpick : nv.picked (n - nv.min).toNat = (i : Int) := by
    unfold NewView.whichPicked at hk
    split at hk
    · exact Option.some.inj hk
    · cases hk
  have hinfo : nv.vcInfo i = V.cfg.vcDigest vc := by
    by_cases hp : V.cfg.primary s.v = V.id
    · obtain ⟨-, -, -, -, -, hne⟩ := hs.picked hn (hsent hp) hnv hlo hhi hpick
      obtain ⟨vc', hvc', hd⟩ := (hs.own hp nv hnv).2 i hne
      rw [hvc] at hvc'
      cases hvc'
      exact hd
    · exact (hs.heard hp nv hnv).2.2 i vc hvc
  have hpicks : nv.Picks V.cfg VC n (V.cfg.requestDigest r) :=
    ⟨i, vc, r, (hs.filed i vc hvc).2.2.2, hlo, hk, hinfo, hr, rfl⟩
  refine Reaches.ite (fun hpv => ?_) fun hpv =>
    Reaches.pure ⟨hs.stay, nv, hnv, ?_, fun _ => rfl, rfl⟩
  · refine Reaches.ofOption_bind hs.stay fun o ho =>
      Reaches.ofOption_bind hs.stay fun j hj => Reaches.ofOption_bind hs.stay fun cur hcur => ?_
    subst hj
    refine Reaches.ofOption_bind hs.stay fun pp hpp =>
      Reaches.modify_bind trivial (Reaches.pure ⟨⟨?_, ?_⟩, nv, hnv, ?_, fun hp => ?_,
      hs.dated.cell hcur pp hpp⟩)
    · exact SourcedWith.toSourced (s := NVInfo.setCell _ _ { cur with pi := none } s)
        ((hs.within (hs.ne_of_nv hnv)).setCell hcur rfl rfl rfl (fun _ _ h => by cases h)
          fun _ h => by cases h)
    · exact .of_eq (fun h => h) rfl rfl rfl
    · rw [Cfg.requestDigest, if_pos hpv] at hpicks
      exact hpicks
    · -- the entry that was completed is the one of the picked view-change
      obtain ⟨j', c, hcomp, hcell, hid, -⟩ := hs.picked hn (hsent hp) hnv hlo hhi hpick
      have hj : j' = j := by
        rw [hcomp] at ho
        exact Option.some.inj (Option.some.inj ho)
      have hc : c = cur := by
        rw [← hj, hcell] at hcur
        exact Option.some.inj hcur
      subst hc
      obtain ⟨⟨vc', hvc', hreq⟩, hpi⟩ := hs.made hp n j' c hcell
      rw [hid, hvc] at hvc'
      cases hvc'
      rw [hr] at hreq
      cases hreq
      exact hpi pp hpp
  · rw [Cfg.requestDigest, if_neg hpv] at hpicks
    exact hpicks

end NVInfo

end TinyBFT
