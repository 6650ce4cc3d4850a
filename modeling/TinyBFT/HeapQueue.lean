import TinyBFT.ReqQueue

/-!
# The request queue of the heap build (`Req_queue.{h,cc}`)

The array `reqs` has a node for each principal. A node owns the request that it points to, and the
nodes with a request are linked in the order in which the requests were appended.

| here | there |
| --- | --- |
| `HeapQueue`  | `Req_queue`: `r c` is `reqs[c].r`, `list` the links of the nodes, `head` and `tail` |
| `append`, `pop`, `removeClient`, `clear` | `append`, `remove()`, `remove(cid, rid)` and `clear` (`Req_queue.cc:19-113`) |
| `first` | `first` (`Req_queue.h:106-112`) |
| `run`        | calls one after another, and what they return |
| `Fifo.run`   | the same calls on a `Fifo` |

`none` is a failed assertion, that of `Array::operator[]` among them. `remove()` leaves the links of
the node that it takes off as they are, and so does `remove(cid, rid)`. `out_rid` and `out_v` are
left out: `append` and `remove` do not read them.
-/

namespace TinyBFT

structure HeapQueue where
  r : Nat → Option Req
  list : Dll Nat
  nelems : Int
  nbytes : Int

namespace HeapQueue

variable (np : Nat)

def init : HeapQueue := ⟨fun _ => none, ⟨⟨fun _ => none, fun _ => none⟩, none, none⟩, 0, 0⟩

/-- `remove(cid, rid)`: the result says whether the request was the first. -/
def removeClient (s : HeapQueue) (cid rid : Nat) : Option (HeapQueue × Bool) :=
  if cid < np then
    match s.r cid with
    | none => some (s, false)
    | some old =>
      if old.rid ≤ rid then do
        let list ← Dll.unlink cid s.list
        some (⟨Function.update s.r cid none, list, s.nelems - 1, s.nbytes - old.size⟩,
          (s.list.links.prev cid).isNone)
      else some (s, false)
  else none

/-- The end of `append`: the node becomes the last. -/
def store (s : HeapQueue) (r : Req) : Option HeapQueue := do
  let list ← Dll.pushBack r.cid s.list
  some ⟨Function.update s.r r.cid (some r), list, s.nelems + 1, s.nbytes + r.size⟩

def append (s : HeapQueue) (r : Req) : Option (HeapQueue × Bool) :=
  if r.cid < np then
    match s.r r.cid with
    | none => do
      let s ← s.store r
      some (s, true)
    | some old =>
      if old.rid < r.rid then do
        let (s, _) ← s.removeClient np r.cid r.rid
        let s ← s.store r
        some (s, true)
      else some (s, false)
  else none

def pop (s : HeapQueue) : Option (HeapQueue × Option Req) :=
  match s.list.head with
  | none => some (s, none)
  | some h => do
    let ret ← s.r h
    let (_, list) ← Dll.popFront s.list
    some (⟨Function.update s.r h none, list, s.nelems - 1, s.nbytes - ret.size⟩, some ret)

/-- Every node of the array is cleared. -/
def clear (s : HeapQueue) : HeapQueue where
  r c := if c < np then none else s.r c
  list :=
    { links :=
        { prev := fun c => if c < np then none else s.list.links.prev c
          next := fun c => if c < np then none else s.list.links.next c }
      head := none
      tail := none }
  nelems := 0
  nbytes := 0

def first (s : HeapQueue) : Option (Option Req) :=
  match s.list.head with
  | none => some none
  | some h => (s.r h).map some

inductive Op where
  | append (r : Req)
  | pop
  | removeClient (cid rid : Nat)
  | clear
deriving DecidableEq, Repr

/-- What a call returns. -/
inductive Res where
  | bool (b : Bool)
  | req (r : Option Req)
  | unit
deriving DecidableEq, Repr

def apply (s : HeapQueue) : Op → Option (HeapQueue × Res)
  | .append r => (s.append np r).map fun p => (p.1, .bool p.2)
  | .pop => s.pop.map fun p => (p.1, .req p.2)
  | .removeClient cid rid => (s.removeClient np cid rid).map fun p => (p.1, .bool p.2)
  | .clear => some (s.clear np, .unit)

def run (s : HeapQueue) : List Op → Option (HeapQueue × List Res)
  | [] => some (s, [])
  | op :: ops => do
    let (s, res) ← s.apply np op
    let (s, rest) ← run s ops
    some (s, res :: rest)

/-- The client of a call is a principal. -/
def Op.Known : Op → Prop
  | .append r => r.cid < np
  | .removeClient cid _ => cid < np
  | .pop | .clear => True

instance : ∀ op : Op, Decidable (op.Known np)
  | .append _ | .removeClient _ _ => inferInstanceAs (Decidable (_ < _))
  | .pop | .clear => .isTrue trivial

end HeapQueue

/-! ## The calls on a `Fifo` -/

namespace Fifo

def call (q : Fifo) : HeapQueue.Op → Fifo × HeapQueue.Res
  | .append r => ((q.append r).1, .bool (q.append r).2)
  | .pop => (q.pop.1, .req q.pop.2)
  | .removeClient cid rid => ((q.removeClient cid rid).1, .bool (q.removeClient cid rid).2)
  | .clear => (empty, .unit)

def run (q : Fifo) : List HeapQueue.Op → Fifo × List HeapQueue.Res
  | [] => (q, [])
  | op :: ops => ((run (q.call op).1 ops).1, (q.call op).2 :: (run (q.call op).1 ops).2)

variable {q : Fifo} {r old : Req} {c cid rid : Nat}

theorem find_eq_some : q.find cid = some r ↔ r ∈ q.reqs ∧ r.cid = cid := by
  constructor
  · intro h
    exact ⟨List.mem_of_find?_eq_some h, by simpa using List.find?_some h⟩
  · rintro ⟨hr, rfl⟩
    obtain ⟨x, hx⟩ : ∃ x, q.find r.cid = some x := by
      cases hf : q.find r.cid with
      | some x => exact ⟨x, rfl⟩
      | none => simpa using List.find?_eq_none.1 hf r hr
    have hxr : x.cid = r.cid := by simpa using List.find?_some hx
    rw [hx, List.inj_on_of_nodup_map q.nodup (List.mem_of_find?_eq_some hx) hr hxr]

theorem find_eq_none : q.find cid = none ↔ cid ∉ q.reqs.map Req.cid := by
  simp [find, List.find?_eq_none]

/-- Who has a request in the queue, when a client's is dropped. -/
theorem find_drop : (q.drop cid).find c = if c = cid then none else q.find c := by
  ext x
  split
  · rename_i hc
    subst hc
    rw [find_eq_none.2 (not_mem_drop q c)]
  · rename_i hc
    rw [find_eq_some, find_eq_some, drop, List.mem_filter]
    constructor
    · rintro ⟨⟨hx, -⟩, hxc⟩
      exact ⟨hx, hxc⟩
    · rintro ⟨hx, rfl⟩
      exact ⟨⟨hx, by simpa using hc⟩, rfl⟩

theorem find_push : (q.push r).find c = if c = r.cid then some r else q.find c := by
  split
  · rename_i hc
    subst hc
    exact find_eq_some.2 ⟨by simp [push_reqs], rfl⟩
  · rename_i hc
    have hdrop : (q.drop r.cid).find c = q.find c := by rw [find_drop, if_neg hc]
    rw [← hdrop]
    ext x
    rw [find_eq_some, find_eq_some, push_reqs, List.mem_append, List.mem_singleton]
    constructor
    · rintro ⟨hx | rfl, hxc⟩
      · exact ⟨hx, hxc⟩
      · exact absurd hxc.symm hc
    · rintro ⟨hx, hxc⟩
      exact ⟨.inl hx, hxc⟩

theorem size_drop (hr : r ∈ q.reqs) : (q.drop r.cid).size = q.size - 1 := by
  obtain ⟨l₁, l₂, hl, hdrop⟩ := exists_drop hr
  rw [size, size, hdrop, hl]
  simp only [List.length_append, List.length_cons]
  omega

theorem numBytes_drop (hr : r ∈ q.reqs) : (q.drop r.cid).numBytes = q.numBytes - r.size := by
  obtain ⟨l₁, l₂, hl, hdrop⟩ := exists_drop hr
  rw [numBytes, numBytes, hdrop, hl]
  simp only [List.map_append, List.map_cons, List.sum_append, List.sum_cons]
  omega

theorem size_push (hnot : r.cid ∉ q.reqs.map Req.cid) : (q.push r).size = q.size + 1 := by
  rw [size, size, push_reqs, drop_of_not_mem hnot, List.length_append]
  push_cast
  rfl

theorem numBytes_push (hnot : r.cid ∉ q.reqs.map Req.cid) :
    (q.push r).numBytes = q.numBytes + r.size := by
  rw [numBytes, numBytes, push_reqs, drop_of_not_mem hnot, List.map_append, List.sum_append]
  simp

/-- `append` takes a request that is newer than the one of its client. -/
theorem append_iff : (q.append r).2 = true ↔ ∀ old ∈ q.reqs, old.cid = r.cid → old.rid < r.rid := by
  unfold append
  cases hf : q.find r.cid with
  | none =>
    have hnot := find_eq_none.1 hf
    simp only [Option.all_none, if_true, true_iff]
    intro old hold hcid
    exact absurd (List.mem_map.2 ⟨old, hold, hcid⟩) hnot
  | some x =>
    obtain ⟨hx, hxr⟩ := find_eq_some.1 hf
    simp only [Option.all_some, decide_eq_true_eq]
    constructor
    · intro h old hold hcid
      rw [List.inj_on_of_nodup_map q.nodup hold hx (hcid.trans hxr.symm)]
      by_contra hlt
      simp [hlt] at h
    · intro h
      rw [if_pos (h x hx hxr)]

theorem append_reqs : (q.append r).1.reqs = if (q.append r).2 then
    q.reqs.filter (fun x => x.cid != r.cid) ++ [r] else q.reqs := by
  unfold append
  split <;> rfl

theorem pop_nil (h : q.reqs = []) : q.pop = (q, none) := by
  unfold pop
  split
  · rfl
  · simp_all

theorem pop_cons {rs : List Req} (h : q.reqs = r :: rs) :
    q.pop = (q.drop r.cid, some r) ∧ (q.drop r.cid).reqs = rs := by
  have hnd := q.nodup
  rw [h, List.map_cons, List.nodup_cons] at hnd
  have hrest : (q.drop r.cid).reqs = rs := by
    show q.reqs.filter (fun x => x.cid != r.cid) = rs
    rw [h, List.filter_cons_of_neg (by simp), List.filter_eq_self]
    intro x hx
    refine bne_iff_ne.2 fun he => hnd.1 ?_
    rw [← he]
    exact List.mem_map_of_mem hx
  refine ⟨?_, hrest⟩
  unfold pop
  split
  · simp_all
  · rename_i x xs hx
    obtain ⟨rfl, rfl⟩ := List.cons.inj (h.symm.trans hx)
    exact Prod.ext (Fifo.ext hrest.symm) rfl

/-- `remove(cid, rid)` returns true where it leaves what is behind the first request. -/
theorem removeClient_iff :
    (q.removeClient cid rid).2 = true ↔ ∃ x, q.reqs = x :: (q.removeClient cid rid).1.reqs := by
  unfold removeClient
  split
  · rename_i hany
    obtain ⟨x, hx, -⟩ := (Option.any_eq_true ..).1 hany
    obtain ⟨hm, rfl⟩ := find_eq_some.1 hx
    obtain ⟨l₁, l₂, hl, hdrop⟩ := exists_drop hm
    dsimp only
    rw [hdrop, hl]
    cases l₁ with
    | nil => simp
    | cons y ys =>
      have hnd := q.nodup
      rw [hl, List.cons_append, List.map_cons, List.nodup_cons] at hnd
      have hy : y ∉ ys ++ x :: l₂ := fun hm => hnd.1 (List.mem_map_of_mem hm)
      have hne : y.cid ≠ x.cid := by
        intro he
        exact hnd.1 (he ▸ List.mem_map_of_mem (List.mem_append_right _ List.mem_cons_self))
      have hrest : ¬ys ++ x :: l₂ = y :: (ys ++ l₂) := fun he => hy (he ▸ List.mem_cons_self)
      simp [hne, hrest]
  · simp

end Fifo

/-! ## The nodes and the list -/

namespace HeapQueue

variable {np : Nat} {s : HeapQueue} {f : Fifo} {r : Req} {cid rid : Nat}

/-- The nodes with a request are linked in the order of `f`, both ways, and each has the request of
its client. -/
structure Holds (s : HeapQueue) (f : Fifo) : Prop where
  list : s.list.IsList (f.reqs.map Req.cid)
  nodes : ∀ c, s.r c = f.find c
  nelems : s.nelems = f.size
  nbytes : s.nbytes = f.numBytes

theorem holds_init : Holds init Fifo.empty :=
  ⟨Dll.isList_empty _, fun _ => rfl, rfl, rfl⟩

/-- The request of a client leaves the queue. -/
theorem Holds.unlink (h : Holds s f) (hr : r ∈ f.reqs) :
    ∃ list, Dll.unlink r.cid s.list = some list ∧
      Holds ⟨Function.update s.r r.cid none, list, s.nelems - 1, s.nbytes - r.size⟩ (f.drop r.cid) ∧
      (s.list.links.prev r.cid).isNone = f.reqs.head?.any fun x => x.cid == r.cid := by
  obtain ⟨l₁, l₂, hl, hdrop⟩ := Fifo.exists_drop hr
  have hnd := f.nodup
  have hlist := h.list
  rw [hl, List.map_append, List.map_cons] at hnd hlist
  obtain ⟨list, hunlink, hrest⟩ := hlist.unlink hnd
  refine ⟨list, hunlink, ⟨?_, fun c => ?_, ?_, ?_⟩, ?_⟩
  · rw [hdrop, List.map_append]
    exact hrest
  · rw [Fifo.find_drop, ← h.nodes c]
    exact Function.update_apply ..
  · rw [Fifo.size_drop hr, ← h.nelems]
  · rw [Fifo.numBytes_drop hr, ← h.nbytes]
  · rw [hlist.prev_isNone, hl]
    cases l₁ with
    | nil => simp
    | cons x xs =>
      have hne : x.cid ≠ r.cid := by
        intro he
        simp [he] at hnd
      simp [hne]

theorem Holds.removeClient (h : Holds s f) (hcid : cid < np) (rid : Nat) :
    ∃ s', s.removeClient np cid rid = some (s', (f.removeClient cid rid).2) ∧
      Holds s' (f.removeClient cid rid).1 := by
  unfold HeapQueue.removeClient Fifo.removeClient
  rw [if_pos hcid, h.nodes cid]
  cases hf : f.find cid with
  | none => exact ⟨s, rfl, h⟩
  | some old =>
    obtain ⟨hold, rfl⟩ := Fifo.find_eq_some.1 hf
    by_cases hrid : old.rid ≤ rid
    · obtain ⟨list, hunlink, hrest, hfirst⟩ := h.unlink hold
      simp only [if_pos hrid, Option.any_some, decide_eq_true hrid,
        if_true, hunlink, Option.bind_eq_bind, Option.bind_some, hfirst]
      exact ⟨_, rfl, hrest⟩
    · simp only [if_neg hrid, Option.any_some, decide_eq_false hrid, Bool.false_eq_true, if_false]
      exact ⟨s, rfl, h⟩

/-- A request of a client without one joins the queue. -/
theorem Holds.store (h : Holds s f) (hnot : r.cid ∉ f.reqs.map Req.cid) :
    ∃ s', s.store r = some s' ∧ Holds s' (f.push r) := by
  obtain ⟨list, hpush, hlist⟩ := h.list.pushBack f.nodup hnot
  unfold HeapQueue.store
  rw [hpush]
  refine ⟨_, rfl, ?_, fun c => ?_, ?_, ?_⟩
  · rw [Fifo.push_reqs, Fifo.drop_of_not_mem hnot, List.map_append]
    exact hlist
  · rw [Fifo.find_push, ← h.nodes c]
    exact Function.update_apply ..
  · rw [Fifo.size_push hnot, ← h.nelems]
  · rw [Fifo.numBytes_push hnot, ← h.nbytes]

theorem Holds.append (h : Holds s f) (hcid : r.cid < np) :
    ∃ s', s.append np r = some (s', (f.append r).2) ∧ Holds s' (f.append r).1 := by
  unfold HeapQueue.append Fifo.append
  rw [if_pos hcid, h.nodes r.cid]
  cases hf : f.find r.cid with
  | none =>
    obtain ⟨s', hs', hpush⟩ := h.store (Fifo.find_eq_none.1 hf)
    simp only [hs', Option.bind_eq_bind, Option.bind_some, Option.all_none, if_true]
    exact ⟨s', rfl, hpush⟩
  | some old =>
    by_cases hlt : old.rid < r.rid
    · -- the older request goes, then the new one comes
      obtain ⟨t, ht, hdrop⟩ := h.removeClient hcid r.rid
      have hrem :
        f.removeClient r.cid r.rid = (f.drop r.cid, f.reqs.head?.any fun x => x.cid == r.cid) := by
        unfold Fifo.removeClient
        rw [hf, if_pos (by simpa using hlt.le)]
      rw [hrem] at hdrop
      obtain ⟨s', hs', hpush⟩ := hdrop.store (Fifo.not_mem_drop f r.cid)
      rw [Fifo.push_drop] at hpush
      simp only [if_pos hlt, ht, hs', Option.bind_eq_bind,
        Option.bind_some, Option.all_some, decide_eq_true hlt, if_true]
      exact ⟨s', rfl, hpush⟩
    · simp only [if_neg hlt, Option.all_some, decide_eq_false hlt, Bool.false_eq_true, if_false]
      exact ⟨s, rfl, h⟩

theorem Holds.pop (h : Holds s f) : ∃ s', s.pop = some (s', f.pop.2) ∧ Holds s' f.pop.1 := by
  have hlist := h.list
  have hnd := f.nodup
  unfold HeapQueue.pop
  cases hreqs : f.reqs with
  | nil =>
    rw [hreqs] at hlist
    have hh : s.list.head = none := hlist.1
    rw [hh, Fifo.pop_nil hreqs]
    exact ⟨s, rfl, h⟩
  | cons r rs =>
    rw [hreqs, List.map_cons] at hlist hnd
    have hh : s.list.head = some r.cid := hlist.1
    have hm : r ∈ f.reqs := by
      rw [hreqs]
      exact List.mem_cons_self
    have hr : s.r r.cid = some r := (h.nodes _).trans (Fifo.find_eq_some.2 ⟨hm, rfl⟩)
    obtain ⟨list, hpop, hpoplist⟩ := Dll.IsList.popFront hlist hnd
    obtain ⟨hdrop, hrest⟩ := Fifo.pop_cons hreqs
    rw [hh, hdrop]
    simp only [hr, hpop, Option.bind_eq_bind, Option.bind_some]
    refine ⟨_, rfl, ?_, fun c => ?_, ?_, ?_⟩
    · rw [hrest]
      exact hpoplist
    · rw [Fifo.find_drop, ← h.nodes c]
      exact Function.update_apply ..
    · rw [Fifo.size_drop hm, ← h.nelems]
    · rw [Fifo.numBytes_drop hm, ← h.nbytes]

theorem Holds.clear (h : Holds s f) (hf : ∀ x ∈ f.reqs, x.cid < np) :
    Holds (s.clear np) Fifo.empty := by
  refine ⟨Dll.isList_empty _, fun c => ?_, rfl, rfl⟩
  have hnone : Fifo.empty.find c = none := rfl
  rw [hnone]
  show (if c < np then none else s.r c) = none
  split
  · rfl
  · rename_i hc
    rw [h.nodes c, Fifo.find_eq_none]
    intro hm
    obtain ⟨x, hx, rfl⟩ := List.mem_map.1 hm
    exact hc (hf x hx)

/-! ## Calls one after another -/

/-- The requests of the queue are of principals. -/
def OfClients (np : Nat) (f : Fifo) : Prop := ∀ x ∈ f.reqs, x.cid < np

theorem OfClients.call (hf : OfClients np f) {op : Op} (hop : op.Known np) :
    OfClients np (f.call op).1 := by
  cases op with
  | append r =>
    intro x hx
    rw [Fifo.call, Fifo.append_reqs] at hx
    split at hx
    · rcases List.mem_append.1 hx with hx | hx
      · exact hf x (List.mem_of_mem_filter hx)
      · rw [List.mem_singleton.1 hx]
        exact hop
    · exact hf x hx
  | pop =>
    intro x hx
    rw [Fifo.call, Fifo.pop_reqs] at hx
    exact hf x (List.mem_of_mem_tail hx)
  | removeClient cid rid =>
    intro x hx
    unfold Fifo.call Fifo.removeClient at hx
    dsimp only at hx
    split at hx
    · exact hf x (List.mem_of_mem_filter hx)
    · exact hf x hx
  | clear =>
    intro x hx
    cases hx

theorem Holds.apply (h : Holds s f) (hf : OfClients np f) {op : Op} (hop : op.Known np) :
    ∃ s', s.apply np op = some (s', (f.call op).2) ∧ Holds s' (f.call op).1 := by
  cases op with
  | append r =>
    obtain ⟨s', hs', h'⟩ := h.append hop
    exact ⟨s', by rw [HeapQueue.apply, hs']; rfl, h'⟩
  | pop =>
    obtain ⟨s', hs', h'⟩ := h.pop
    exact ⟨s', by rw [HeapQueue.apply, hs']; rfl, h'⟩
  | removeClient cid rid =>
    obtain ⟨s', hs', h'⟩ := h.removeClient hop rid
    exact ⟨s', by rw [HeapQueue.apply, hs']; rfl, h'⟩
  | clear => exact ⟨_, rfl, h.clear hf⟩

theorem Holds.run (h : Holds s f) (hf : OfClients np f) {ops : List Op}
    (hops : ∀ op ∈ ops, op.Known np) :
    ∃ s', s.run np ops = some (s', (f.run ops).2) ∧ Holds s' (f.run ops).1 := by
  induction ops generalizing s f with
  | nil => exact ⟨s, rfl, h⟩
  | cons op ops ih =>
    have hop := hops op List.mem_cons_self
    obtain ⟨t, ht, h'⟩ := h.apply hf hop
    obtain ⟨s', hs', h''⟩ := ih h' (hf.call hop) fun op' hm => hops op' (List.mem_cons_of_mem _ hm)
    refine ⟨s', ?_, h''⟩
    rw [HeapQueue.run, ht]
    simp only [Option.bind_eq_bind, Option.bind_some, hs']
    rfl

theorem Holds.first (h : Holds s f) : s.first = some f.reqs.head? := by
  have hlist := h.list
  unfold HeapQueue.first
  cases hreqs : f.reqs with
  | nil =>
    rw [hreqs] at hlist
    rw [hlist.1]
    rfl
  | cons r rs =>
    rw [hreqs] at hlist
    have hh : s.list.head = some r.cid := hlist.1
    have hr : s.r r.cid = some r := (h.nodes _).trans (Fifo.find_eq_some.2 ⟨by simp [hreqs], rfl⟩)
    rw [hh]
    simp [hr]

/-- **The queue is a FIFO with one place for each client.** Any calls for requests of principals go
through, they return what they return on a `Fifo`, and the list, the nodes and the counters are
those of the `Fifo` that the calls make. The calls that may come next: `append` replaces an older
request of the client and rejects a request that is not newer, and `remove(cid, rid)` returns true
exactly if it takes off the first request. -/
theorem run_fifo (np : Nat) (ops : List Op) (hops : ∀ op ∈ ops, op.Known np) :
    ∃ s f, init.run np ops = some (s, (Fifo.empty.run ops).2) ∧ f = (Fifo.empty.run ops).1 ∧
      s.list.IsList (f.reqs.map Req.cid) ∧ (f.reqs.map Req.cid).Nodup ∧
        (∀ c, s.r c = f.reqs.find? fun x => x.cid == c) ∧
      s.nelems = f.reqs.length ∧ s.nbytes = (f.reqs.map fun x => (x.size : Int)).sum ∧
        s.first = some f.reqs.head? ∧
      (∀ r, r.cid < np → ∃ s' f' b, s.append np r = some (s', b) ∧ Holds s' f' ∧
        (b = true ↔ ∀ old ∈ f.reqs, old.cid = r.cid → old.rid < r.rid) ∧
        f'.reqs = if b then f.reqs.filter (fun x => x.cid != r.cid) ++ [r] else f.reqs) ∧
      ∀ cid rid, cid < np → ∃ s' f' b, s.removeClient np cid rid = some (s', b) ∧ Holds s' f' ∧
        (b = true ↔ ∃ x, f.reqs = x :: f'.reqs) := by
  obtain ⟨s, hrun, h⟩ := holds_init.run (fun _ hx => by cases hx) hops
  refine ⟨s, _, hrun, rfl, h.list, Fifo.nodup _, h.nodes,
    h.nelems, h.nbytes, h.first, fun r hr => ?_, fun cid rid hcid => ?_⟩
  · obtain ⟨s', hs', h'⟩ := h.append hr
    exact ⟨s', _, _, hs', h', Fifo.append_iff, Fifo.append_reqs⟩
  · obtain ⟨s', hs', h'⟩ := h.removeClient hcid rid
    exact ⟨s', _, _, hs', h', Fifo.removeClient_iff⟩

/-- Client 1 sends a newer request while its older one is behind that of client 0. -/
def newerRequest : List Op :=
  [.append ⟨0, 4, false, 7, [1], 80⟩, .append ⟨1, 5, false, 8, [2], 80⟩,
    .append ⟨1, 6, false, 9, [3], 96⟩, .removeClient 1 6, .pop]

theorem run_newerRequest :
    ∃ s, init.run 2 newerRequest = some (s, (Fifo.empty.run newerRequest).2) ∧ s.nelems = 0 := by
  obtain ⟨s, f, hrun, hf, -, -, -, hnelems, -⟩ := run_fifo 2 newerRequest (by decide)
  refine ⟨s, hrun, ?_⟩
  rw [hnelems, hf]
  decide

end HeapQueue

end TinyBFT
