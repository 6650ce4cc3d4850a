import Mathlib.Data.List.Nodup
import Mathlib.Data.List.Perm.Subperm

/-!
# Keys in the order of their last use

A list of keys with stamps, the one that was used last in front. `touch` uses a key at a later time.
Which keys a cache holds that gives up the one with the oldest stamp is then a matter of the first
keys of the list.
-/

namespace Recent

variable {K : Type*} {k : K} {t : Int} {r : List (K × Int)} {e : K × Int}

/-- Newest first, and every key once. -/
structure Ordered (r : List (K × Int)) : Prop where
  stamps : r.Pairwise fun a b => b.2 < a.2
  keys : (r.map Prod.fst).Nodup

theorem ordered_nil : Ordered ([] : List (K × Int)) := ⟨.nil, .nil⟩

theorem ordered_singleton (k : K) (t : Int) : Ordered [(k, t)] :=
  ⟨List.pairwise_singleton _ _, List.nodup_singleton _⟩

theorem Ordered.tail (h : Ordered (e :: r)) : Ordered r :=
  ⟨(List.pairwise_cons.1 h.stamps).2, (List.nodup_cons.1 h.keys).2⟩

/-- What is newer than one of the first keys is one of them. -/
theorem Ordered.mem_take_of_le {x : K × Int} {n : Nat} (h : Ordered r) (he : e ∈ r.take n)
    (hx : x ∈ r) (hle : e.2 ≤ x.2) : x ∈ r.take n := by
  rw [← List.take_append_drop n r, List.mem_append] at hx
  refine hx.resolve_right fun hdrop => ?_
  have hp := h.stamps
  rw [← List.take_append_drop n r, List.pairwise_append] at hp
  have := hp.2.2 e he x hdrop
  omega

/-- The first `n` keys are no more than `n`. -/
theorem length_le_of_take {n : Nat} {ks : List K} (hd : ks.Nodup)
    (h : ∀ k ∈ ks, ∃ t, (k, t) ∈ r.take n) : ks.length ≤ n := by
  have hsub : ks ⊆ (r.take n).map Prod.fst := fun k hk => by
    obtain ⟨t, ht⟩ := h k hk
    exact List.mem_map.2 ⟨(k, t), ht, rfl⟩
  have := (List.Nodup.subperm hd hsub).length_le
  rw [List.length_map, List.length_take] at this
  omega

section Touch

variable [DecidableEq K]

def touch (k : K) (t : Int) (r : List (K × Int)) : List (K × Int) :=
  (k, t) :: r.filter fun e => decide (e.1 ≠ k)

theorem mem_touch : e ∈ touch k t r ↔ e = (k, t) ∨ (e ∈ r ∧ e.1 ≠ k) := by simp [touch]

theorem Ordered.touch (h : Ordered r) (hlt : ∀ e ∈ r, e.2 < t) : Ordered (touch k t r) where
  stamps := List.pairwise_cons.2 ⟨fun e he => hlt e (List.mem_filter.1 he).1, h.stamps.filter _⟩
  keys := by
    refine List.nodup_cons.2 ⟨fun hk => ?_, h.keys.sublist (List.filter_sublist.map _)⟩
    obtain ⟨e, he, heq⟩ := List.mem_map.1 hk
    exact of_decide_eq_true (List.mem_filter.1 he).2 heq

/-- Without one key, the others move up by one place at most. -/
theorem Ordered.mem_take_of_filter {r : List (K × Int)} {n : Nat} (h : Ordered r)
    (he : e ∈ (r.filter fun e => decide (e.1 ≠ k)).take n) :
    e ∈ r.take (n + 1) := by
  induction r generalizing n with
  | nil => simp at he
  | cons x r ih =>
    have hx := (List.nodup_cons.1 h.keys).1
    by_cases hk : x.1 = k
    · have hall : (r.filter fun e => decide (e.1 ≠ k)) = r :=
        List.filter_eq_self.2 fun y hy => decide_eq_true
          fun hyk => hx (List.mem_map.2 ⟨y, hy, hyk.trans hk.symm⟩)
      rw [List.filter_cons_of_neg (by simpa using hk), hall] at he
      rw [List.take_succ_cons]
      exact List.mem_cons_of_mem _ he
    · rw [List.filter_cons_of_pos (by simpa using hk)] at he
      cases n with
      | zero => simp at he
      | succ n =>
        rw [List.take_succ_cons] at he ⊢
        rcases List.mem_cons.1 he with rfl | he
        · exact List.mem_cons_self
        · exact List.mem_cons_of_mem _ (ih h.tail he)

end Touch

end Recent
