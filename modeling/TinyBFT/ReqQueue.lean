import TinyBFT.Messages
import TinyBFT.Lib.Dll
import TinyBFT.Lib.Run
import Mathlib.Algebra.BigOperators.Group.List.Basic

/-!
# The request queues of the static build (`Req_queue.cc`, `special_region.cc`)

A replica has a queue of requests to be ordered, `rqueue`, and one of read-only requests that wait,
`ro_rqueue`. A queue has one node for each client. In the static build `append` copies the request
into `special_region::requests[cid]`, and a node points there; both queues use the same block.

| here | there |
| --- | --- |
| `Req`             | a `Request`: what `Request_rep` and the bytes behind it say (`Request.h:25-34`) |
| `ReqQueue`        | `Req_queue`: `held c` is `reqs[c].r != nullptr`, `list` the links of the nodes, `head` and `tail` |
| `Queues`          | `rqueue`, `ro_rqueue` and `special_region::requests` |
| `Queues.append`, `pop`, `removeClient` | `append`, `remove()` and `remove(cid, rid)` (`Req_queue.cc:19-102`) |
| `Fifo`            | what a queue is for: a list with at most one request of a client |

A node of a held request points to `requests[cid]` always, so `held` says all of it. `store_request`
asserts that the request fits (`special_region.cc:188`). `out_rid` and `out_v` are left out:
`append` and `remove` do not read them.
-/

namespace TinyBFT

structure Req where
  cid : Nat
  rid : Nat
  readOnly : Bool
  digest : Digest
  command : List UInt8
  size : Nat
deriving DecidableEq, Repr

structure ReqQueue where
  held : Nat → Bool
  list : Dll Nat
  nelems : Int
  nbytes : Int

/-- The two queues, `true` for the read-only one, and the blocks. -/
structure Queues where
  queue : Bool → ReqQueue
  requests : Nat → Req

namespace Queues

variable (maxRequestSize : Nat)

def init (requests : Nat → Req) : Queues where
  queue _ := ⟨fun _ => false, ⟨⟨fun _ => none, fun _ => none⟩, none, none⟩, 0, 0⟩
  requests := requests

def setQueue (s : Queues) (ro : Bool) (q : ReqQueue) : Queues :=
  { s with queue := Function.update s.queue ro q }

/-- `remove(cid, rid)`: the result says whether the request was the first. -/
def removeClient (s : Queues) (ro : Bool) (cid rid : Nat) : Option (Queues × Bool) :=
  let q := s.queue ro
  if q.held cid && (s.requests cid).rid ≤ rid then do
    let list ← Dll.unlink cid q.list
    let held := Function.update q.held cid false
    some (s.setQueue ro ⟨held, list, q.nelems - 1, q.nbytes - (s.requests cid).size⟩,
      (q.list.links.prev cid).isNone)
  else some (s, false)

/-- The end of `append`: `persist`, and the node becomes the last. -/
def store (s : Queues) (ro : Bool) (r : Req) : Option Queues :=
  if r.size ≤ maxRequestSize then do
    let q := s.queue ro
    let list ← Dll.pushBack r.cid q.list
    let held := Function.update q.held r.cid true
    some { s.setQueue ro ⟨held, list, q.nelems + 1, q.nbytes + r.size⟩ with
      requests := Function.update s.requests r.cid r }
  else none

def append (s : Queues) (ro : Bool) (r : Req) : Option (Queues × Bool) :=
  if (s.queue ro).held r.cid then
    if (s.requests r.cid).rid < r.rid then do
      let (s, _) ← s.removeClient ro r.cid r.rid
      let s ← s.store maxRequestSize ro r
      some (s, true)
    else some (s, false)
  else do
    let s ← s.store maxRequestSize ro r
    some (s, true)

/-- `remove()`: the request is read where the first node points to. -/
def pop (s : Queues) (ro : Bool) : Option (Queues × Option Req) :=
  let q := s.queue ro
  match q.list.head with
  | none => some (s, none)
  | some h =>
    if !q.held h then none
    else do
      let (_, list) ← Dll.popFront q.list
      let held := Function.update q.held h false
      some (s.setQueue ro ⟨held, list, q.nelems - 1, q.nbytes - (s.requests h).size⟩,
        some (s.requests h))

/-- The operations, with the queue that they are on. -/
inductive Op
  | append (ro : Bool) (r : Req)
  | pop (ro : Bool)
  | removeClient (ro : Bool) (cid rid : Nat)
deriving DecidableEq, Repr

/-- What an operation returns. -/
inductive Res
  | bool (b : Bool)
  | req (r : Option Req)
deriving DecidableEq, Repr

def apply (s : Queues) : Op → Option (Queues × Res)
  | .append ro r => (s.append maxRequestSize ro r).map fun p => (p.1, .bool p.2)
  | .pop ro => (s.pop ro).map fun p => (p.1, .req p.2)
  | .removeClient ro cid rid => (s.removeClient ro cid rid).map fun p => (p.1, .bool p.2)

def step (s : Queues) (op : Op) : Option Queues := (s.apply maxRequestSize op).map Prod.fst

end Queues

/-! ## What a queue is for -/

/-- A queue holds the requests themselves, the oldest first and at most one of a client. -/
@[ext]
structure Fifo where
  reqs : List Req
  nodup : (reqs.map Req.cid).Nodup

namespace Fifo

def empty : Fifo := ⟨[], List.nodup_nil⟩

/-- The request of a client. -/
def find (q : Fifo) (cid : Nat) : Option Req := q.reqs.find? fun r => r.cid == cid

/-- The client's request is dropped. -/
def drop (q : Fifo) (cid : Nat) : Fifo where
  reqs := q.reqs.filter fun r => r.cid != cid
  nodup := q.nodup.sublist (List.filter_sublist.map _)

def size (q : Fifo) : Int := q.reqs.length

def numBytes (q : Fifo) : Int := (q.reqs.map fun r => (r.size : Int)).sum

/-- The request becomes the last, in place of an older one of the client. -/
def push (q : Fifo) (r : Req) : Fifo where
  reqs := (q.drop r.cid).reqs ++ [r]
  nodup := by
    rw [List.map_append, List.nodup_append]
    refine ⟨(q.drop r.cid).nodup, List.nodup_singleton _, ?_⟩
    intro c hc c' hc' he
    obtain ⟨x, hx, rfl⟩ := List.mem_map.1 hc
    rw [List.mem_singleton.1 hc'] at he
    simp [drop, he] at hx

/-- The results of the three operations and the queues that they leave. -/
def append (q : Fifo) (r : Req) : Fifo × Bool :=
  if (q.find r.cid).all fun old => old.rid < r.rid then (q.push r, true) else (q, false)

def pop (q : Fifo) : Fifo × Option Req :=
  match h : q.reqs with
  | [] => (q, none)
  | r :: rs => (⟨rs, (h ▸ q.nodup : ((r :: rs).map Req.cid).Nodup).of_cons⟩, some r)

def removeClient (q : Fifo) (cid rid : Nat) : Fifo × Bool :=
  if (q.find cid).any fun old => old.rid ≤ rid then
    (q.drop cid, q.reqs.head?.any fun r => r.cid == cid) else (q, false)

/-- An operation on two queues that have nothing to do with each other. -/
def apply (q : Bool → Fifo) : Queues.Op → (Bool → Fifo) × Queues.Res
  | .append ro r => (Function.update q ro ((q ro).append r).1, .bool ((q ro).append r).2)
  | .pop ro => (Function.update q ro (q ro).pop.1, .req (q ro).pop.2)
  | .removeClient ro cid rid =>
    (Function.update q ro ((q ro).removeClient cid rid).1, .bool ((q ro).removeClient cid rid).2)

end Fifo

/-! ## One queue -/

namespace Queues

variable {maxRequestSize : Nat} {s s' : Queues} {ro : Bool} {f : Fifo} {cid rid : Nat} {r : Req}

/-- The queue holds the requests of `f`, in their blocks and in their order. -/
structure Holds (s : Queues) (ro : Bool) (f : Fifo) : Prop where
  list : (s.queue ro).list.IsList (f.reqs.map Req.cid)
  held : ∀ c, (s.queue ro).held c = true ↔ c ∈ f.reqs.map Req.cid
  contents : ∀ r ∈ f.reqs, s.requests r.cid = r
  nelems : (s.queue ro).nelems = f.size
  nbytes : (s.queue ro).nbytes = f.numBytes

theorem holds_init (requests : Nat → Req) (ro : Bool) : Holds (init requests) ro Fifo.empty := by
  refine ⟨Dll.isList_empty _, ?_, ?_, ?_, ?_⟩ <;> simp [init, Fifo.empty, Fifo.size, Fifo.numBytes]

/-- Only the blocks of the queue's own requests matter to it. -/
theorem Holds.congr (h : Holds s ro f) (hq : s'.queue ro = s.queue ro)
    (hr : ∀ r ∈ f.reqs, s'.requests r.cid = s.requests r.cid) : Holds s' ro f := by
  refine ⟨by rw [hq]; exact h.list, by rw [hq]; exact h.held,
    fun r hm => ?_, by rw [hq]; exact h.nelems, by rw [hq]; exact h.nbytes⟩
  rw [hr r hm]
  exact h.contents r hm

theorem Holds.mem (h : Holds s ro f) (hheld : (s.queue ro).held cid = true) :
    s.requests cid ∈ f.reqs ∧ (s.requests cid).cid = cid := by
  obtain ⟨r, hr, rfl⟩ := List.mem_map.1 ((h.held cid).1 hheld)
  rw [h.contents r hr]
  exact ⟨hr, rfl⟩

/-- What the node of a client says is what the list has. -/
theorem Holds.find (h : Holds s ro f) :
    f.find cid = if (s.queue ro).held cid then some (s.requests cid) else none := by
  unfold Fifo.find
  cases hheld : (s.queue ro).held cid with
  | true =>
    obtain ⟨hm, hcid⟩ := h.mem hheld
    rw [if_pos rfl]
    cases hf : f.reqs.find? fun r => r.cid == cid with
    | none =>
      have := List.find?_eq_none.1 hf _ hm
      simp [hcid] at this
    | some r =>
      have hr := List.mem_of_find?_eq_some hf
      have hrc : r.cid = cid := by simpa using List.find?_some hf
      rw [← hrc, h.contents r hr]
  | false =>
    rw [if_neg (by simp), List.find?_eq_none]
    intro r hr hrc
    have := (h.held cid).2 (List.mem_map.2 ⟨r, hr, by simpa using hrc⟩)
    rw [hheld] at this
    cases this

end Queues

namespace Fifo

variable {q : Fifo} {r : Req} {cid : Nat}

/-- Dropping a request leaves those before it and those behind it. -/
theorem exists_drop (hr : r ∈ q.reqs) :
    ∃ l₁ l₂, q.reqs = l₁ ++ r :: l₂ ∧ (q.drop r.cid).reqs = l₁ ++ l₂ := by
  obtain ⟨l₁, l₂, hl⟩ := List.append_of_mem hr
  refine ⟨l₁, l₂, hl, ?_⟩
  have hnd := q.nodup
  rw [hl, List.map_append, List.map_cons, List.nodup_append] at hnd
  obtain ⟨-, hnd₂, hdisj⟩ := hnd
  have h₁ : ∀ x ∈ l₁, (x.cid != r.cid) = true := by
    intro x hx
    exact bne_iff_ne.2 (hdisj _ (List.mem_map_of_mem hx) _ List.mem_cons_self)
  have h₂ : ∀ x ∈ l₂, (x.cid != r.cid) = true := by
    intro x hx
    refine bne_iff_ne.2 fun he => (List.nodup_cons.1 hnd₂).1 ?_
    rw [← he]
    exact List.mem_map_of_mem hx
  unfold drop
  simp only [hl, List.filter_append, List.filter_cons, bne_self_eq_false,
    Bool.false_eq_true, if_false]
  rw [List.filter_eq_self.2 h₁, List.filter_eq_self.2 h₂]

theorem not_mem_drop (q : Fifo) (cid : Nat) : cid ∉ (q.drop cid).reqs.map Req.cid := by
  simp [drop]

theorem pop_reqs (q : Fifo) : q.pop.1.reqs = q.reqs.tail := by
  unfold pop
  split <;> simp [*]

theorem drop_of_not_mem (h : cid ∉ q.reqs.map Req.cid) : q.drop cid = q := by
  ext1
  refine List.filter_eq_self.2 fun x hx => bne_iff_ne.2 ?_
  rintro rfl
  exact h (List.mem_map_of_mem hx)

theorem push_reqs (q : Fifo) (r : Req) : (q.push r).reqs = (q.drop r.cid).reqs ++ [r] := rfl

theorem push_drop (q : Fifo) (r : Req) : (q.drop r.cid).push r = q.push r := by
  ext1
  rw [push_reqs, push_reqs, drop_of_not_mem (not_mem_drop q r.cid)]

end Fifo

namespace Queues

variable {maxRequestSize : Nat} {s s' : Queues} {ro : Bool} {f : Fifo} {cid rid : Nat} {r : Req}

@[simp] theorem setQueue_self (q : ReqQueue) : (s.setQueue ro q).queue ro = q :=
  Function.update_self ..

@[simp] theorem setQueue_other (q : ReqQueue) : (s.setQueue ro q).queue (!ro) = s.queue (!ro) :=
  Function.update_of_ne (by cases ro <;> simp) ..

@[simp] theorem setQueue_requests (q : ReqQueue) : (s.setQueue ro q).requests = s.requests := rfl

/-- The request of a client leaves its queue. -/
theorem Holds.removeClient (h : Holds s ro f) (hheld : (s.queue ro).held cid = true)
    (hrid : (s.requests cid).rid ≤ rid) :
    ∃ s', s.removeClient ro cid rid = some (s', f.reqs.head?.any fun r => r.cid == cid) ∧
      Holds s' ro (f.drop cid) ∧
      s'.queue (!ro) = s.queue (!ro) ∧ s'.requests = s.requests ∧
        (s'.queue ro).held cid = false := by
  obtain ⟨hm, hcid⟩ := h.mem hheld
  obtain ⟨l₁, l₂, hl, hdrop⟩ := Fifo.exists_drop hm
  rw [hcid] at hdrop
  have hnd := f.nodup
  have hlist := h.list
  rw [hl, List.map_append, List.map_cons, hcid] at hnd hlist
  obtain ⟨d, hd, hdlist⟩ := hlist.unlink hnd
  have hfirst : (f.reqs.head?.any fun r => r.cid == cid) =
    ((s.queue ro).list.links.prev cid).isNone := by
    rw [hlist.prev_isNone, hl]
    cases l₁ with
    | nil => simp [hcid]
    | cons x xs =>
      have hne : x.cid ≠ cid := by
        rintro rfl
        simp at hnd
      simp [hne]
  unfold Queues.removeClient
  dsimp only
  rw [if_pos (by simp [hheld, hrid]), hd, hfirst]
  refine ⟨_, rfl, ⟨?_, fun c => ?_, fun x hx => ?_, ?_, ?_⟩, setQueue_other _, rfl, by simp⟩
  · rw [setQueue_self, hdrop, List.map_append]
    exact hdlist
  · rw [setQueue_self]
    simp only [Function.update_apply]
    by_cases hc : c = cid
    · subst hc
      simpa using Fifo.not_mem_drop f c
    · rw [if_neg hc, h.held c, hdrop, hl]
      simp [hcid, hc]
  · refine h.contents x ?_
    rw [hdrop] at hx
    rw [hl]
    simp only [List.mem_append, List.mem_cons] at hx ⊢
    tauto
  · rw [setQueue_self]
    dsimp only
    rw [h.nelems, Fifo.size, Fifo.size, hdrop, hl]
    simp only [List.length_append, List.length_cons]
    omega
  · rw [setQueue_self]
    dsimp only
    rw [h.nbytes, Fifo.numBytes, Fifo.numBytes, hdrop, hl]
    simp only [List.map_append, List.map_cons, List.sum_append, List.sum_cons]
    omega

/-- A request of a client without one joins the queue. -/
theorem Holds.store (h : Holds s ro f) (hheld : (s.queue ro).held r.cid = false)
    (hsize : r.size ≤ maxRequestSize) :
    ∃ s', s.store maxRequestSize ro r = some s' ∧ Holds s' ro (f.push r) ∧
      s'.queue (!ro) = s.queue (!ro) ∧
      s'.requests = Function.update s.requests r.cid r := by
  have hnot : r.cid ∉ f.reqs.map Req.cid := by
    rw [← h.held, hheld]
    simp
  have hpush : (f.push r).reqs = f.reqs ++ [r] := by
    rw [Fifo.push_reqs, Fifo.drop_of_not_mem hnot]
  obtain ⟨d, hd, hdlist⟩ := h.list.pushBack f.nodup hnot
  unfold Queues.store
  rw [if_pos hsize]
  dsimp only
  rw [hd]
  refine ⟨_, rfl, ⟨?_, fun c => ?_, fun x hx => ?_, ?_, ?_⟩, setQueue_other _, rfl⟩
  · rw [hpush, List.map_append]
    simpa [setQueue] using hdlist
  · rw [hpush]
    simp only [setQueue, Function.update_self, Function.update_apply]
    by_cases hc : c = r.cid
    · simp [hc]
    · rw [if_neg hc, h.held c]
      simp [hc]
  · rw [hpush] at hx
    dsimp only
    rcases List.mem_append.1 hx with hx | hx
    · have hne : x.cid ≠ r.cid := by
        intro he
        exact hnot (he ▸ List.mem_map_of_mem hx)
      rw [Function.update_of_ne hne]
      exact h.contents x hx
    · rw [List.mem_singleton.1 hx, Function.update_self]
  · simp only [setQueue, Function.update_self]
    rw [h.nelems, Fifo.size, Fifo.size, hpush, List.length_append]
    push_cast
    rfl
  · simp only [setQueue, Function.update_self]
    rw [h.nbytes, Fifo.numBytes, Fifo.numBytes, hpush, List.map_append, List.sum_append]
    simp

/-- `append` takes the request: the client has none in the queue, or an older one. -/
def Accepts (s : Queues) (ro : Bool) (r : Req) : Prop :=
  (s.queue ro).held r.cid = true → (s.requests r.cid).rid < r.rid

instance (s : Queues) (ro : Bool) (r : Req) : Decidable (s.Accepts ro r) :=
  inferInstanceAs (Decidable (_ → _))

theorem Holds.append (h : Holds s ro f) (hacc : s.Accepts ro r) (hsize : r.size ≤ maxRequestSize) :
    ∃ s', s.append maxRequestSize ro r = some (s', true) ∧
      f.append r = (f.push r, true) ∧ Holds s' ro (f.push r) ∧
      s'.queue (!ro) = s.queue (!ro) ∧ s'.requests = Function.update s.requests r.cid r := by
  unfold Queues.append Fifo.append
  rw [h.find]
  cases hheld : (s.queue ro).held r.cid with
  | true =>
    have hlt := hacc hheld
    obtain ⟨t, ht, hdrop, hother, hreqs, hfree⟩ := h.removeClient hheld hlt.le
    obtain ⟨s', hs', hpush, hother', hreqs'⟩ := hdrop.store hfree hsize
    rw [Fifo.push_drop] at hpush
    simp only [if_true, if_pos hlt, ht, hs', Option.bind_eq_bind,
      Option.bind_some, Option.all_some, decide_eq_true hlt]
    exact ⟨s', rfl, trivial, hpush, hother'.trans hother, by rw [hreqs', hreqs]⟩
  | false =>
    obtain ⟨s', hs', hpush, hother', hreqs'⟩ := h.store hheld hsize
    simp only [Bool.false_eq_true, if_false, hs', Option.bind_eq_bind,
      Option.bind_some, Option.all_none, if_true]
    exact ⟨s', rfl, trivial, hpush, hother', hreqs'⟩

theorem Holds.append_refused (maxRequestSize : Nat) (h : Holds s ro f) (hacc : ¬ s.Accepts ro r) :
    s.append maxRequestSize ro r = some (s, false) ∧ f.append r = (f, false) := by
  unfold Accepts at hacc
  push Not at hacc
  obtain ⟨hheld, hle⟩ := hacc
  unfold Queues.append Fifo.append
  rw [h.find, hheld]
  have hlt : ¬ (s.requests r.cid).rid < r.rid := by omega
  simp [hlt]

/-- A request that is too long stops the replica. -/
theorem append_too_long (hacc : s.Accepts ro r) (hsize : ¬ r.size ≤ maxRequestSize) :
    s.append maxRequestSize ro r = none := by
  have hstore : ∀ t : Queues, t.store maxRequestSize ro r = none := fun t => if_neg hsize
  unfold Queues.append
  split
  · rename_i hheld
    rw [if_pos (hacc hheld)]
    cases ht : s.removeClient ro r.cid r.rid with
    | none => rfl
    | some p => simp [hstore]
  · simp [hstore]

theorem Holds.pop (h : Holds s ro f) :
    ∃ s', s.pop ro = some (s', f.pop.2) ∧ Holds s' ro f.pop.1 ∧
      s'.queue (!ro) = s.queue (!ro) ∧ s'.requests = s.requests := by
  have hlist := h.list
  have hnd := f.nodup
  obtain ⟨reqs, hnodup⟩ := f
  cases reqs with
  | nil =>
    have hh : (s.queue ro).list.head = none := hlist.1
    unfold Queues.pop
    dsimp only
    rw [hh]
    exact ⟨s, rfl, h, rfl, rfl⟩
  | cons r rs =>
    have hh : (s.queue ro).list.head = some r.cid := hlist.1
    have hr := h.contents r List.mem_cons_self
    have hheld := (h.held r.cid).2 List.mem_cons_self
    obtain ⟨d, hd, hdlist⟩ := Dll.IsList.popFront hlist hnd
    unfold Queues.pop
    dsimp only
    rw [hh]
    simp only [hheld, Bool.not_true, Bool.false_eq_true,
      if_false, hd, Option.bind_eq_bind, Option.bind_some, hr]
    refine ⟨_, rfl, ⟨?_, fun c => ?_, fun x hx => ?_, ?_, ?_⟩, setQueue_other _, rfl⟩
    · rw [setQueue_self]
      exact hdlist
    · rw [setQueue_self]
      simp only [Function.update_apply, Fifo.pop]
      by_cases hc : c = r.cid
      · subst hc
        simpa using (List.nodup_cons.1 hnd).1
      · rw [if_neg hc, h.held c]
        simp [hc]
    · exact h.contents x (List.mem_cons_of_mem _ hx)
    · rw [setQueue_self]
      dsimp only
      rw [h.nelems]
      simp [Fifo.size, Fifo.pop]
    · rw [setQueue_self]
      dsimp only
      rw [h.nbytes]
      simp [Fifo.numBytes, Fifo.pop]

/-! ## Two queues -/

/-- Each queue holds its own requests. -/
def Represents (s : Queues) (f : Bool → Fifo) : Prop := ∀ ro, Holds s ro (f ro)

/-- An `append` that is accepted does not overwrite another request, one that the other queue has of
the client. -/
def Apart (maxRequestSize : Nat) (s : Queues) : Op → Prop
  | .append ro r => s.Accepts ro r → r.size ≤ maxRequestSize →
      (s.queue !ro).held r.cid = true → s.requests r.cid = r
  | _ => True

instance (s : Queues) : ∀ op, Decidable (Apart maxRequestSize s op)
  | .append _ _ => inferInstanceAs (Decidable (_ → _ → _ → _))
  | .pop _ | .removeClient _ _ _ => .isTrue trivial

variable {q : Bool → Fifo} {op : Op} {res : Res}

theorem represents_init (requests : Nat → Req) :
    Represents (init requests) fun _ => Fifo.empty := holds_init requests

/-- Two requirements, one for each queue. -/
theorem Represents.update (ho : Holds s' ro f) (hother : Holds s' (!ro) (q !ro)) :
    Represents s' (Function.update q ro f) := by
  intro ro'
  by_cases hro : ro' = ro
  · subst hro
    rw [Function.update_self]
    exact ho
  · obtain rfl : ro' = !ro := by cases ro <;> cases ro' <;> simp_all
    rw [Function.update_of_ne hro]
    exact hother

/-- **One operation** that keeps apart does what it does on two separate queues. -/
theorem Represents.apply (h : Represents s q) (hok : Apart maxRequestSize s op)
    (hs : s.apply maxRequestSize op = some (s', res)) :
    Represents s' (Fifo.apply q op).1 ∧ res = (Fifo.apply q op).2 := by
  cases op with
  | append ro r =>
    simp only [Queues.apply, Option.map_eq_some_iff] at hs
    obtain ⟨⟨t, b⟩, ha, hres⟩ := hs
    obtain ⟨rfl, rfl⟩ := Prod.mk.inj hres
    unfold Fifo.apply
    by_cases hacc : s.Accepts ro r
    · by_cases hsize : r.size ≤ maxRequestSize
      · obtain ⟨t', ht', hf, hown, hother, hreqs⟩ := (h ro).append hacc hsize
        rw [ht'] at ha
        obtain ⟨rfl, rfl⟩ := Prod.mk.inj (Option.some.inj ha)
        simp only [hf]
        refine ⟨.update hown ((h !ro).congr hother fun x hx => ?_), trivial⟩
        rw [hreqs, Function.update_apply]
        split
        · rename_i hx'
          rw [hx', hok hacc hsize (((h !ro).held _).2 (hx' ▸ List.mem_map_of_mem hx))]
        · rfl
      · rw [append_too_long hacc hsize] at ha
        cases ha
    · obtain ⟨ht', hf⟩ := (h ro).append_refused maxRequestSize hacc
      rw [ht'] at ha
      obtain ⟨rfl, rfl⟩ := Prod.mk.inj (Option.some.inj ha)
      simp only [hf]
      exact ⟨.update (h ro) (h !ro), trivial⟩
  | pop ro =>
    simp only [Queues.apply, Option.map_eq_some_iff] at hs
    obtain ⟨⟨t, o⟩, ha, hres⟩ := hs
    obtain ⟨rfl, rfl⟩ := Prod.mk.inj hres
    obtain ⟨t', ht', hown, hother, hreqs⟩ := (h ro).pop
    rw [ht'] at ha
    obtain ⟨rfl, rfl⟩ := Prod.mk.inj (Option.some.inj ha)
    exact ⟨.update hown ((h !ro).congr hother fun x _ => by rw [hreqs]), rfl⟩
  | removeClient ro cid rid =>
    simp only [Queues.apply, Option.map_eq_some_iff] at hs
    obtain ⟨⟨t, b⟩, ha, hres⟩ := hs
    obtain ⟨rfl, rfl⟩ := Prod.mk.inj hres
    unfold Fifo.apply Fifo.removeClient
    dsimp only
    rw [(h ro).find]
    by_cases hrem : (s.queue ro).held cid = true ∧ (s.requests cid).rid ≤ rid
    · obtain ⟨t', ht', hown, hother, hreqs, -⟩ := (h ro).removeClient hrem.1 hrem.2
      rw [ht'] at ha
      obtain ⟨rfl, rfl⟩ := Prod.mk.inj (Option.some.inj ha)
      simp only [hrem.1, if_true, Option.any_some, decide_eq_true hrem.2]
      exact ⟨.update hown ((h !ro).congr hother fun x _ => by rw [hreqs]), trivial⟩
    · have hskip : ((s.queue ro).held cid && decide ((s.requests cid).rid ≤ rid)) = false := by
        simpa using hrem
      have hskip' : ((if (s.queue ro).held cid = true then some (s.requests cid) else none).any
        fun old => decide (old.rid ≤ rid)) = false := by
        cases hheld : (s.queue ro).held cid
        · rfl
        · simpa [hheld] using hskip
      unfold Queues.removeClient at ha
      dsimp only at ha
      rw [hskip] at ha
      obtain ⟨rfl, rfl⟩ := Prod.mk.inj (Option.some.inj ha)
      rw [hskip']
      exact ⟨.update (h ro) (h !ro), rfl⟩

/-- An operation that does not keep apart changes a request of the other queue. -/
theorem Represents.clash (h : Represents s q) (hok : ¬ Apart maxRequestSize s op) :
    ∃ s' res, s.apply maxRequestSize op = some (s', res) ∧ ¬ Represents s' (Fifo.apply q op).1 := by
  cases op with
  | pop ro => exact absurd trivial hok
  | removeClient ro cid rid => exact absurd trivial hok
  | append ro r =>
    simp only [Apart, Classical.not_imp] at hok
    obtain ⟨hacc, hsize, hheld, hne⟩ := hok
    obtain ⟨s', hs', -, -, -, hreqs⟩ := (h ro).append hacc hsize
    refine ⟨s', .bool true, by rw [Queues.apply, hs']; rfl, fun hrep => hne ?_⟩
    obtain ⟨hm, hcid⟩ := (h !ro).mem hheld
    have hother : (Fifo.apply q (.append ro r)).1 (!ro) = q !ro :=
      Function.update_of_ne (by cases ro <;> simp) ..
    have hcontents := (hrep !ro).contents _ (hother ▸ hm)
    rw [hcid, hreqs, Function.update_self] at hcontents
    exact hcontents.symm

/-- The two queues of a run, each for itself. -/
def separate (ops : List Op) : Bool → Fifo :=
  ops.foldl (fun q op => (Fifo.apply q op).1) fun _ => Fifo.empty

theorem separate_run (ops : List Op) : ∀ {s : Queues} {q : Bool → Fifo}, Represents s q →
    ((∀ as, as <+: ops → ∀ s', Run.run (step maxRequestSize) s as = some s' →
        Represents s' (as.foldl (fun q op => (Fifo.apply q op).1) q)) ↔
      Run.Meets (step maxRequestSize) (Apart maxRequestSize) s ops) := by
  induction ops with
  | nil =>
    intro s q h
    refine ⟨fun _ => trivial, fun _ as has s' hr => ?_⟩
    obtain rfl := List.prefix_nil.1 has
    obtain rfl := Option.some.inj hr
    exact h
  | cons op ops ih =>
    intro s q h
    constructor
    · intro hall
      have hok : Apart maxRequestSize s op := by
        by_contra hok
        obtain ⟨s', res, hs', hnot⟩ := h.clash hok
        have hstep : step maxRequestSize s op = some s' := by
          unfold step
          rw [hs']
          rfl
        exact hnot (hall [op] (by simp) s' (Run.run_cons.2 ⟨s', hstep, rfl⟩))
      refine ⟨hok, fun t ht => ?_⟩
      obtain ⟨⟨t', res⟩, ha, rfl⟩ := Option.map_eq_some_iff.1 ht
      refine (ih (h.apply hok ha).1).1 fun as has s' hr => ?_
      exact hall (op :: as) (by simpa using has) s' (Run.run_cons.2 ⟨t', ht, hr⟩)
    · rintro ⟨hok, hrest⟩ as has s' hr
      cases as with
      | nil =>
        obtain rfl := Option.some.inj hr
        exact h
      | cons op' as =>
        obtain ⟨rfl, htail⟩ := List.cons_prefix_cons.1 has
        obtain ⟨t, ht, hr⟩ := Run.run_cons.1 hr
        obtain ⟨⟨t', res⟩, ha, rfl⟩ := Option.map_eq_some_iff.1 ht
        exact (ih (h.apply hok ha).1).2 (hrest _ ht) as htail s' hr

/-- **The queues do not interfere** exactly in the runs in which no accepted `append` finds another
request of its client in the other queue: then each queue has the requests, the order, the size and
the number of bytes that its own operations give it. -/
theorem queues_separate_iff (maxRequestSize : Nat) (requests : Nat → Req) (ops : List Op) :
    (∀ as, as <+: ops → ∀ s, Run.run (step maxRequestSize) (init requests) as = some s →
        Represents s (separate as)) ↔
      Run.Meets (step maxRequestSize) (Apart maxRequestSize) (init requests) ops :=
  separate_run ops (represents_init requests)

/-- Client 5 sends a request, and then a read-only one while the first is queued. -/
def readWhileQueued : List Op :=
  [.append false ⟨5, 1, false, 7, [1], 80⟩, .append true ⟨5, 2, true, 8, [2], 80⟩]

/-- The read-only request takes the place of the other one. -/
theorem readWhileQueued_overwrites :
    ¬ ∀ as, as <+: readWhileQueued → ∀ s,
      Run.run (step 1024) (init fun c => ⟨c, 0, false, 0, [], 0⟩) as = some s →
      Represents s (separate as) := by
  intro hall
  obtain ⟨s, hs⟩ : ∃ s,
    Run.run (step 1024) (init fun c => ⟨c, 0, false, 0, [], 0⟩) readWhileQueued = some s := ⟨_, rfl⟩
  have hcontents :=
    (hall _ (List.prefix_refl _) s hs false).contents ⟨5, 1, false, 7, [1], 80⟩ (by decide)
  obtain rfl := Option.some.inj hs
  exact absurd hcontents (by decide)

end Queues

end TinyBFT
