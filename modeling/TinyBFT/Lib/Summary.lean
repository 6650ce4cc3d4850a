import Mathlib.Data.List.Induction
import Mathlib.Data.List.Nodup
import Mathlib.Data.List.Perm.Subperm

/-!
# Counting from summaries

Items come in one by one, each with a key. A *summary* keeps one entry for each key that came in,
and in it a count of the items that the entry *covers*: those with the same key and those with a key
below. When an item comes in, the entries that cover it are raised by one; a new key gets an entry
that starts with the number of *entries* below it, and one for the item. Some keys get no entry
(they are not `keyed`).

What the entry should count are the items `le` its key. The summary counts exactly these as long as
every item that a new key covers has an entry of its own (`exact_iff`); it never counts too many
(`count_le`), and what it says does not depend on the order then (`mem_entries_of_perm`).
-/

structure Summary (K : Type) where
  below : K → K → Bool
  keyed : K → Bool
  le : K → K → Bool

namespace Summary

variable {K : Type} [DecidableEq K] (T : Summary K)

/-- An entry for `k` is raised by an item with key `x`. -/
def covers (k x : K) : Bool := decide (x = k) || T.below x k

/-- What is covered should be counted. -/
def Sound : Prop := ∀ k x, T.covers k x = true → T.le x k = true

def bump (x : K) (e : K × Nat) : K × Nat := (e.1, e.2 + if T.covers e.1 x then 1 else 0)

/-- The entries after an item with key `x`. -/
def add (es : List (K × Nat)) (x : K) : List (K × Nat) :=
  es.map (T.bump x) ++
    if T.keyed x && !(es.any fun e => decide (e.1 = x)) then
      [(x, (es.filter fun e => T.below e.1 x).length + 1)] else []

def entries (xs : List K) : List (K × Nat) := xs.foldl T.add []

/-- What an entry for `k` should count. -/
def upTo (xs : List K) (k : K) : Nat := xs.countP fun x => T.le x k

def Exact (xs : List K) : Prop := ∀ e ∈ T.entries xs, e.2 = T.upTo xs e.1

/-- An item with key `x` should be counted for `k`, but an entry for `k` does not cover it. -/
def Missed (x k : K) : Prop := T.keyed k = true ∧ T.le x k = true ∧ T.covers k x = false

/-- The item with key `x` after the items `xs`: neither misses the other, and if it is new, the
items below it have entries of their own. -/
structure Fits (xs : List K) (x : K) : Prop where
  meets : ∀ y ∈ xs, ¬T.Missed x y ∧ ¬T.Missed y x
  keyed : T.keyed x = true → x ∉ xs → ∀ y ∈ xs, T.below y x = true → T.keyed y = true
  apart : T.keyed x = true → x ∉ xs → (xs.filter fun y => T.below y x).Nodup

/-- Every item fits after those that came in before it. -/
def Orderly (xs : List K) : Prop := ∀ ys x zs, xs = ys ++ x :: zs → T.Fits ys x

variable {T} {xs ys : List K} {x : K}

theorem entries_snoc : T.entries (xs ++ [x]) = T.add (T.entries xs) x := by
  simp [entries]

theorem orderly_snoc : T.Orderly (xs ++ [x]) ↔ T.Orderly xs ∧ T.Fits xs x := by
  constructor
  · intro h
    refine ⟨fun ys y zs heq => h ys y (zs ++ [x]) ?_, h xs x [] rfl⟩
    simp [heq]
  · rintro ⟨h, hx⟩ ys y zs heq
    rcases List.eq_nil_or_concat' zs with rfl | ⟨zs', z, rfl⟩
    · obtain ⟨rfl, hxy⟩ := List.append_inj' heq rfl
      cases hxy
      exact hx
    · have heq : xs ++ [x] = (ys ++ y :: zs') ++ [z] := by simp [heq]
      obtain ⟨rfl, -⟩ := List.append_inj' heq rfl
      exact h ys y zs' rfl

omit [DecidableEq K] in
theorem upTo_snoc (k : K) : T.upTo (xs ++ [x]) k = T.upTo xs k + if T.le x k then 1 else 0 := by
  simp [upTo, List.countP_append, List.countP_singleton]

@[simp] theorem bump_fst (e : K × Nat) : (T.bump x e).1 = e.1 := rfl

theorem bump_snd (e : K × Nat) : (T.bump x e).2 = e.2 + if T.covers e.1 x then 1 else 0 := rfl

@[simp] theorem map_bump_fst (es : List (K × Nat)) :
    (es.map (T.bump x)).map Prod.fst = es.map Prod.fst := by
  simp [bump, Function.comp_def]

theorem any_key (es : List (K × Nat)) :
    (es.any fun e => decide (e.1 = x)) = true ↔ x ∈ es.map Prod.fst := by
  simp

/-- The keys of the entries after one more item. -/
theorem map_add_fst (es : List (K × Nat)) : (T.add es x).map Prod.fst =
    es.map Prod.fst ++ if T.keyed x = true ∧ x ∉ es.map Prod.fst then [x] else [] := by
  have hiff : (T.keyed x && !(es.any fun e => decide (e.1 = x))) = true ↔
    T.keyed x = true ∧ x ∉ es.map Prod.fst := by
    rw [Bool.and_eq_true, Bool.not_eq_true', ← Bool.not_eq_true, any_key]
  rw [add, List.map_append, map_bump_fst]
  by_cases h : T.keyed x = true ∧ x ∉ es.map Prod.fst
  · rw [if_pos h, if_pos (hiff.2 h)]
    rfl
  · rw [if_neg h, if_neg (fun hb => h (hiff.1 hb))]
    rfl

/-- The keys with an entry are the keyed ones of the items, … -/
theorem mem_keys {k : K} : k ∈ (T.entries xs).map Prod.fst ↔ k ∈ xs ∧ T.keyed k = true := by
  induction xs using List.reverseRecOn with
  | nil => simp [entries]
  | append_singleton xs x ih =>
    rw [entries_snoc, map_add_fst, List.mem_append, ih, List.mem_append, List.mem_singleton]
    constructor
    · rintro (⟨hk, hkey⟩ | hk)
      · exact ⟨.inl hk, hkey⟩
      · split at hk
        · rename_i hx
          rw [List.mem_singleton.1 hk]
          exact ⟨.inr rfl, hx.1⟩
        · cases hk
    · rintro ⟨hk | rfl, hkey⟩
      · exact .inl ⟨hk, hkey⟩
      · by_cases hmem : k ∈ xs
        · exact .inl ⟨hmem, hkey⟩
        · right
          rw [if_pos]
          · simp
          · exact ⟨hkey, fun hk => hmem (ih.1 hk).1⟩

/-- … each with one entry. -/
theorem nodup_keys : ((T.entries xs).map Prod.fst).Nodup := by
  induction xs using List.reverseRecOn with
  | nil => simp [entries]
  | append_singleton xs x ih =>
    rw [entries_snoc, map_add_fst]
    split
    · rename_i hx
      exact List.nodup_append.2 ⟨ih, by simp, fun a ha b hb => by
        rw [List.mem_singleton.1 hb]
        rintro rfl
        exact hx.2 ha⟩
    · simpa using ih

/-- The entries below a key. -/
def lower (T : Summary K) (xs : List K) (x : K) : List K :=
  ((T.entries xs).filter fun e => T.below e.1 x).map Prod.fst

theorem nodup_lower : (T.lower xs x).Nodup :=
  nodup_keys.sublist (List.Sublist.map _ List.filter_sublist)

theorem mem_lower {y : K} : y ∈ T.lower xs x ↔ y ∈ xs ∧ T.keyed y = true ∧ T.below y x = true := by
  have h : y ∈ T.lower xs x ↔ y ∈ (T.entries xs).map Prod.fst ∧ T.below y x = true := by
    simp only [lower, List.mem_map, List.mem_filter]
    constructor
    · rintro ⟨e, ⟨he, hb⟩, rfl⟩
      exact ⟨⟨e, he, rfl⟩, hb⟩
    · rintro ⟨⟨e, he, rfl⟩, hb⟩
      exact ⟨e, ⟨he, hb⟩, rfl⟩
  rw [h, mem_keys, and_assoc]

/-- Entries below a key are items below it, … -/
theorem length_lower_le : (T.lower xs x).length ≤ xs.countP fun y => T.below y x := by
  rw [List.countP_eq_length_filter]
  refine (List.subperm_of_subset nodup_lower fun y hy => ?_).length_le
  obtain ⟨h1, -, h3⟩ := mem_lower.1 hy
  exact List.mem_filter.2 ⟨h1, h3⟩

/-- … and as many only if each item has an entry of its own. -/
theorem length_lower_eq : (T.lower xs x).length = (xs.countP fun y => T.below y x) ↔
    (∀ y ∈ xs, T.below y x = true → T.keyed y = true) ∧ (xs.filter fun y => T.below y x).Nodup := by
  rw [List.countP_eq_length_filter]
  have hsub : T.lower xs x ⊆ xs.filter fun y => T.below y x := by
    intro y hy
    obtain ⟨h1, -, h3⟩ := mem_lower.1 hy
    exact List.mem_filter.2 ⟨h1, h3⟩
  constructor
  · intro hlen
    have hperm :=
      (List.subperm_of_subset nodup_lower hsub).perm_of_length_le (Nat.le_of_eq hlen.symm)
    refine ⟨fun y hy hb => ?_, hperm.nodup_iff.1 nodup_lower⟩
    exact (mem_lower.1 (hperm.mem_iff.2 (List.mem_filter.2 ⟨hy, hb⟩))).2.1
  · rintro ⟨hkeyed, hnodup⟩
    refine Nat.le_antisymm (List.subperm_of_subset nodup_lower hsub).length_le ?_
    refine (List.subperm_of_subset hnodup fun y hy => ?_).length_le
    obtain ⟨h1, h2⟩ := List.mem_filter.1 hy
    have h2 : T.below y x = true := h2
    exact mem_lower.2 ⟨h1, hkeyed y h1 h2, h2⟩

/-- An entry is one that was there, raised, or the new one. -/
theorem mem_add {e : K × Nat} : e ∈ T.entries (xs ++ [x]) ↔ (∃ e' ∈ T.entries xs, e = T.bump x e') ∨
    (T.keyed x = true ∧ x ∉ xs) ∧ e = (x, (T.lower xs x).length + 1) := by
  have hnew : (T.keyed x && !((T.entries xs).any fun e => decide (e.1 = x))) = true ↔
    T.keyed x = true ∧ x ∉ xs := by
    rw [Bool.and_eq_true, Bool.not_eq_true', ← Bool.not_eq_true, any_key, mem_keys]
    constructor
    · rintro ⟨hk, hn⟩
      exact ⟨hk, fun hx => hn ⟨hx, hk⟩⟩
    · rintro ⟨hk, hn⟩
      exact ⟨hk, fun hx => hn hx.1⟩
  have hlen : ((T.entries xs).filter fun e => T.below e.1 x).length = (T.lower xs x).length := by
    simp [lower]
  rw [entries_snoc, add, List.mem_append, hlen]
  constructor
  · rintro (he | he)
    · obtain ⟨e', he', rfl⟩ := List.mem_map.1 he
      exact .inl ⟨e', he', rfl⟩
    · split at he
      · rename_i hx
        exact .inr ⟨hnew.1 hx, List.mem_singleton.1 he⟩
      · cases he
  · rintro (⟨e', he', rfl⟩ | ⟨hx, rfl⟩)
    · exact .inl (List.mem_map.2 ⟨e', he', rfl⟩)
    · right
      rw [if_pos (hnew.2 hx)]
      simp

/-- Orderly items do not miss each other. -/
theorem Orderly.not_missed (h : T.Orderly xs) : ∀ y ∈ xs, ∀ z ∈ xs, ¬T.Missed y z := by
  induction xs using List.reverseRecOn with
  | nil => simp
  | append_singleton xs x ih =>
    obtain ⟨hxs, hx⟩ := orderly_snoc.1 h
    intro y hy z hz
    rcases List.mem_append.1 hy with hy | hy
    · rcases List.mem_append.1 hz with hz | hz
      · exact ih hxs y hy z hz
      · rw [List.mem_singleton.1 hz]
        exact (hx.meets y hy).2
    · rw [List.mem_singleton.1 hy]
      rcases List.mem_append.1 hz with hz | hz
      · exact (hx.meets z hz).1
      · rw [List.mem_singleton.1 hz]
        rintro ⟨-, -, hc⟩
        simp [covers] at hc

/-- Where they are right, the counts do not depend on the order. -/
theorem mem_entries_of_perm (hp : xs.Perm ys) (hx : T.Exact xs) (hy : T.Exact ys) {e : K × Nat}
    (he : e ∈ T.entries xs) :
    e ∈ T.entries ys := by
  have hkey := mem_keys.1 (List.mem_map.2 ⟨e, he, rfl⟩)
  obtain ⟨e', he', heq⟩ := List.mem_map.1 (mem_keys.2 ⟨hp.mem_iff.1 hkey.1, hkey.2⟩)
  have hcount : e' = e := by
    refine Prod.ext heq ?_
    rw [hy e' he', hx e he, heq]
    exact (hp.countP_eq _).symm
  rw [← hcount]
  exact he'

section Sound

variable (hT : T.Sound)
include hT

theorem Sound.le_self (k : K) : T.le k k = true := hT k k (by simp [covers])

theorem countP_below_le (k : K) : (xs.countP fun y => T.below y k) ≤ T.upTo xs k := by
  refine List.countP_mono_left fun y _ hy => hT k y ?_
  simp [covers, hy]

/-- An entry never counts too many. -/
theorem count_le : ∀ e ∈ T.entries xs, e.2 ≤ T.upTo xs e.1 := by
  induction xs using List.reverseRecOn with
  | nil => simp [entries]
  | append_singleton xs x ih =>
    intro e he
    rw [upTo_snoc]
    rcases mem_add.1 he with ⟨e', he', rfl⟩ | ⟨-, rfl⟩
    · have hle := ih e' he'
      rw [bump_snd, bump_fst]
      by_cases hc : T.covers e'.1 x = true
      · rw [if_pos hc, if_pos (hT _ _ hc)]
        omega
      · rw [if_neg hc]
        omega
    · rw [if_pos (hT.le_self x)]
      exact Nat.add_le_add_right (Nat.le_trans length_lower_le (countP_below_le hT x)) 1

/-- A new key covers what is below it. -/
theorem upTo_eq_below :
    T.upTo xs x = (xs.countP fun y => T.below y x) ↔ ∀ y ∈ xs,
      T.le y x = true → T.below y x = true := by
  have hsub : (xs.filter fun y => T.below y x).Sublist (xs.filter fun y => T.le y x) :=
    List.monotone_filter_right _ fun y hy => hT x y (by simp [covers, hy])
  unfold upTo
  rw [List.countP_eq_length_filter, List.countP_eq_length_filter]
  constructor
  · intro hlen y hy hle
    have heq := hsub.eq_of_length hlen.symm
    have hmem : y ∈ xs.filter fun y => T.below y x := by
      rw [heq]
      exact List.mem_filter.2 ⟨hy, hle⟩
    exact (List.mem_filter.1 hmem).2
  · intro h
    rw [← List.countP_eq_length_filter, ← List.countP_eq_length_filter]
    exact List.countP_congr fun y hy => ⟨h y hy, fun hb => hT x y (by simp [covers, hb])⟩

/-- A new entry is right where the items fit. -/
theorem new_exact_iff (hk : T.keyed x = true) (hx : x ∉ xs) : (T.lower xs x).length = T.upTo xs x ↔
    (∀ y ∈ xs, ¬T.Missed y x) ∧ (∀ y ∈ xs, T.below y x = true → T.keyed y = true) ∧
      (xs.filter fun y => T.below y x).Nodup := by
  have hmissed : (∀ y ∈ xs, ¬T.Missed y x) ↔ ∀ y ∈ xs, T.le y x = true → T.below y x = true := by
    refine forall₂_congr fun y hy => ?_
    have hne : y ≠ x := by
      rintro rfl
      exact hx hy
    simp [Missed, covers, hk, hne]
  rw [hmissed, ← upTo_eq_below hT, ← length_lower_eq]
  have h1 : (T.lower xs x).length ≤ xs.countP fun y => T.below y x := length_lower_le
  have h2 : (xs.countP fun y => T.below y x) ≤ T.upTo xs x := countP_below_le hT x
  constructor
  · intro heq
    exact ⟨by omega, by omega⟩
  · rintro ⟨h3, h4⟩
    omega

/-- **The counts are right** exactly where every item fits after those before it. -/
theorem exact_iff : T.Exact xs ↔ T.Orderly xs := by
  induction xs using List.reverseRecOn with
  | nil =>
    constructor
    · intro _ ys x zs heq
      simp at heq
    · intro _ e he
      simp [entries] at he
  | append_singleton xs x ih =>
    rw [orderly_snoc, ← ih]
    constructor
    · intro h
      -- the old entries were right, and `x` is not missed
      have hold : ∀ e ∈ T.entries xs, e.2 = T.upTo xs e.1 ∧
        (T.le x e.1 = true → T.covers e.1 x = true) := by
        intro e he
        have h1 := h (T.bump x e) (mem_add.2 (.inl ⟨e, he, rfl⟩))
        have h2 := count_le hT e he
        rw [bump_snd, bump_fst, upTo_snoc] at h1
        by_cases hc : T.covers e.1 x = true
        · rw [if_pos hc, if_pos (hT _ _ hc)] at h1
          exact ⟨by omega, fun _ => hc⟩
        · rw [if_neg hc] at h1
          by_cases hle : T.le x e.1 = true
          · rw [if_pos hle] at h1
            omega
          · rw [if_neg hle] at h1
            exact ⟨by omega, fun hle' => absurd hle' hle⟩
      have hexact : T.Exact xs := fun e he => (hold e he).1
      have hxy : ∀ y ∈ xs, ¬T.Missed x y := by
        rintro y hy ⟨hk, hle, hc⟩
        obtain ⟨e, he, rfl⟩ := List.mem_map.1 (mem_keys.2 ⟨hy, hk⟩)
        rw [(hold e he).2 hle] at hc
        cases hc
      have hnew : T.keyed x = true → x ∉ xs → (T.lower xs x).length = T.upTo xs x := by
        intro hk hx
        have h1 := h _ (mem_add.2 (.inr ⟨⟨hk, hx⟩, rfl⟩))
        rw [upTo_snoc, if_pos (hT.le_self x)] at h1
        exact Nat.add_right_cancel h1
      have hyx : ∀ y ∈ xs, ¬T.Missed y x := by
        intro y hy hmiss
        by_cases hx : x ∈ xs
        · exact (ih.1 hexact).not_missed y hy x hx hmiss
        · exact ((new_exact_iff hT hmiss.1 hx).1 (hnew hmiss.1 hx)).1 y hy hmiss
      refine ⟨hexact, fun y hy => ⟨hxy y hy, hyx y hy⟩, fun hk hx => ?_, fun hk hx => ?_⟩
      · exact ((new_exact_iff hT hk hx).1 (hnew hk hx)).2.1
      · exact ((new_exact_iff hT hk hx).1 (hnew hk hx)).2.2
    · rintro ⟨hexact, hfits⟩ e he
      rw [upTo_snoc]
      rcases mem_add.1 he with ⟨e', he', rfl⟩ | ⟨⟨hk, hx⟩, rfl⟩
      · have hkey : e'.1 ∈ xs ∧ T.keyed e'.1 = true := mem_keys.1 (List.mem_map.2 ⟨e', he', rfl⟩)
        rw [bump_snd, bump_fst, hexact e' he']
        by_cases hle : T.le x e'.1 = true
        · have hc : T.covers e'.1 x = true := by
            by_contra hc
            exact (hfits.meets e'.1 hkey.1).1 ⟨hkey.2, hle, by simpa using hc⟩
          rw [if_pos hc, if_pos hle]
        · have hc : ¬T.covers e'.1 x = true := fun hc => hle (hT _ _ hc)
          rw [if_neg hc, if_neg hle]
      · rw [if_pos (hT.le_self x)]
        refine congrArg (· + 1) ((new_exact_iff hT hk hx).2 ⟨fun y hy => (hfits.meets y hy).2, ?_⟩)
        exact ⟨hfits.keyed hk hx, hfits.apart hk hx⟩

end Sound

end Summary
