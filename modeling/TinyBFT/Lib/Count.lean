import Mathlib.Data.List.Nodup
import Mathlib.Data.List.Perm.Basic
import Mathlib.Data.List.Perm.Subperm
import Mathlib.Data.List.Count

/-!
# Counting the elements of a duplicate-free list

How a count changes with the predicate at one element.
-/

namespace Count

/-- Counting one more element. -/
theorem countP_insert {α : Type} {l : List α} {a : α} {P Q : α → Bool} (hl : l.Nodup) (ha : a ∈ l)
    (hP : P a = false) (hQ : ∀ x, x ≠ a → Q x = P x) :
    l.countP Q = l.countP P + if Q a then 1 else 0 := by
  induction l with
  | nil => simp at ha
  | cons x l ih =>
    obtain ⟨hx, hl⟩ := List.nodup_cons.1 hl
    rw [List.countP_cons, List.countP_cons]
    by_cases hxa : x = a
    · subst hxa
      have hrest : l.countP Q = l.countP P := List.countP_congr fun y hy => by
        rw [hQ y]
        rintro rfl
        exact hx hy
      simp [hrest, hP]
    · have ha' : a ∈ l := by
        rcases List.mem_cons.1 ha with rfl | h
        · exact absurd rfl hxa
        · exact h
      rw [ih hl ha', hQ x hxa]
      omega

/-- Counting the members of a list below a bound. -/
theorem countP_mem {l : List Nat} {n : Nat} (hl : l.Nodup) (h : ∀ i ∈ l, i < n) :
    (List.range n).countP (fun i => decide (i ∈ l)) = l.length := by
  rw [List.countP_eq_length_filter]
  refine ((List.perm_ext_iff_of_nodup (List.nodup_range.filter _) hl).2 fun i => ?_).length_eq
  simp only [List.mem_filter, List.mem_range, decide_eq_true_eq]
  exact ⟨And.right, fun hi => ⟨h i hi, hi⟩⟩

/-- A duplicate-free list of elements that are counted is not longer than the count. -/
theorem length_le_countP {α : Type} {l s : List α} {p : α → Bool} (hs : s.Nodup)
    (h : ∀ x ∈ s, x ∈ l ∧ p x = true) :
    s.length ≤ l.countP p := by
  rw [List.countP_eq_length_filter]
  exact (List.subperm_of_subset hs fun x hx => List.mem_filter.2 (h x hx)).length_le

/-- Two counts that are larger than the list together have an element in common. -/
theorem countP_overlap {α : Type} {l : List α} {P Q : α → Bool}
    (h : l.length < l.countP P + l.countP Q) :
    ∃ x ∈ l, P x = true ∧ Q x = true := by
  induction l with
  | nil => simp at h
  | cons x l ih =>
    by_cases hx : P x = true ∧ Q x = true
    · exact ⟨x, List.mem_cons_self .., hx⟩
    · rw [List.countP_cons, List.countP_cons, List.length_cons] at h
      have hone : (if P x then 1 else 0) + (if Q x then 1 else 0) ≤ 1 := by
        cases hP : P x <;> cases hQ : Q x <;> simp_all
      obtain ⟨y, hy, hPQ⟩ := ih (by omega)
      exact ⟨y, List.mem_cons_of_mem x hy, hPQ⟩

end Count
