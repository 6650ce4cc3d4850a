import Mathlib.Data.List.Basic
import Mathlib.Data.List.Nodup

/-!
# Doubly linked lists

The nodes are keys with two links each. `IsList` says which list of keys the links make, by
*segments*: `Seg L p h l q n` is the chain of the keys `l`, entered at `h` from `p` and left from
`q` to `n`. The three operations change a few links and keep the others. An operation is `none`
where it would follow a link that is not there.
-/

variable {K : Type*}

structure Links (K : Type*) where
  prev : K → Option K
  next : K → Option K

structure Dll (K : Type*) where
  links : Links K
  head : Option K
  tail : Option K

namespace Dll

section Operations

variable [DecidableEq K]

def setNext (c : K) (n : Option K) (L : Links K) : Links K :=
  { L with next := Function.update L.next c n }

def setPrev (c : K) (p : Option K) (L : Links K) : Links K :=
  { L with prev := Function.update L.prev c p }

/-- `c` becomes the last node. -/
def pushBack (c : K) (d : Dll K) : Option (Dll K) :=
  match d.head with
  | none => some ⟨setPrev c none (setNext c none d.links), some c, some c⟩
  | some h => do
    let t ← d.tail
    some ⟨setNext c none (setPrev c (some t) (setNext t (some c) d.links)), some h, some c⟩

/-- The first node is taken off. -/
def popFront (d : Dll K) : Option (K × Dll K) := do
  let h ← d.head
  match d.links.next h with
  | some x => some (h, ⟨setPrev x none d.links, some x, d.tail⟩)
  | none => some (h, ⟨d.links, none, none⟩)

/-- What is before `c` is linked to what is behind it. -/
def unlinkPrev (c : K) (d : Dll K) : Option (Dll K) :=
  match d.links.prev c with
  | none => if d.head = some c then some { d with head := d.links.next c } else none
  | some p => some { d with links := setNext p (d.links.next c) d.links }

/-- What is behind `c` is linked to what is before it. -/
def unlinkNext (c : K) (d : Dll K) : Option (Dll K) :=
  match d.links.next c with
  | none => if d.tail = some c then some { d with tail := d.links.prev c } else none
  | some n => some { d with links := setPrev n (d.links.prev c) d.links }

/-- `c` is taken off, wherever it is. -/
def unlink (c : K) (d : Dll K) : Option (Dll K) := (unlinkPrev c d).bind (unlinkNext c)

end Operations

def Seg (L : Links K) : Option K → Option K → List K → Option K → Option K → Prop
  | p, h, [], q, n => h = n ∧ q = p
  | p, h, c :: cs, q, n => h = some c ∧ L.prev c = p ∧ Seg L (some c) (L.next c) cs q n

/-- The nodes from the head to the tail are `l`. -/
def IsList (d : Dll K) (l : List K) : Prop := Seg d.links none d.head l d.tail none

variable {L L' : Links K} {p h q n m : Option K} {l l₁ l₂ : List K} {c x : K}

theorem seg_append : Seg L p h (l₁ ++ l₂) q n ↔ ∃ m k, Seg L p h l₁ m k ∧ Seg L m k l₂ q n := by
  induction l₁ generalizing p h with
  | nil =>
    simp only [List.nil_append, Seg]
    constructor
    · intro hs
      exact ⟨p, h, ⟨rfl, rfl⟩, hs⟩
    · rintro ⟨m, k, ⟨rfl, rfl⟩, hs⟩
      exact hs
  | cons c cs ih =>
    simp only [List.cons_append, Seg, ih]
    constructor
    · rintro ⟨hh, hp, m, k, h1, h2⟩
      exact ⟨m, k, ⟨hh, hp, h1⟩, h2⟩
    · rintro ⟨m, k, ⟨hh, hp, h1⟩, h2⟩
      exact ⟨hh, hp, m, k, h1, h2⟩

/-- The last node of a segment. -/
theorem seg_snoc :
    Seg L p h (l ++ [c]) q n ↔ Seg L p h l (L.prev c) (some c) ∧ L.next c = n ∧ q = some c := by
  rw [seg_append]
  simp only [Seg]
  constructor
  · rintro ⟨m, k, h1, rfl, rfl, h2, h3⟩
    exact ⟨h1, h2, h3⟩
  · rintro ⟨h1, h2, h3⟩
    exact ⟨_, _, h1, rfl, rfl, h2, h3⟩

/-- A segment depends on the links of its own nodes only. -/
theorem seg_congr (hs : Seg L p h l q n)
    (heq : ∀ c ∈ l, L'.prev c = L.prev c ∧ L'.next c = L.next c) : Seg L' p h l q n := by
  induction l generalizing p h with
  | nil => exact hs
  | cons c cs ih =>
    obtain ⟨hh, hp, hs⟩ := hs
    obtain ⟨hprev, hnext⟩ := heq c List.mem_cons_self
    refine ⟨hh, hprev.trans hp, ?_⟩
    rw [hnext]
    exact ih hs fun x hx => heq x (List.mem_cons_of_mem _ hx)

/-- The end of a segment that starts at nothing. -/
theorem Seg.last_none (hs : Seg L none h l q n) (hq : q = none) : l = [] := by
  rcases List.eq_nil_or_concat l with rfl | ⟨l', c, rfl⟩
  · rfl
  · rw [List.concat_eq_append, seg_snoc] at hs
    rw [hs.2.2] at hq
    cases hq

/-- The start of a segment that ends at nothing. -/
theorem Seg.first_none (hs : Seg L p h l q none) (hh : h = none) : l = [] := by
  cases l with
  | nil => rfl
  | cons c cs =>
    rw [hs.1] at hh
    cases hh

variable {d : Dll K}

theorem isList_empty (L : Links K) : IsList ⟨L, none, none⟩ [] := ⟨rfl, rfl⟩

section Proofs

variable [DecidableEq K]

@[simp] theorem setNext_prev (n : Option K) : (setNext c n L).prev = L.prev := rfl
@[simp] theorem setPrev_next (p : Option K) : (setPrev c p L).next = L.next := rfl
@[simp] theorem setNext_next_self (n : Option K) : (setNext c n L).next c = n :=
  Function.update_self ..
@[simp] theorem setPrev_prev_self (p : Option K) : (setPrev c p L).prev c = p :=
  Function.update_self ..
theorem setNext_next_of_ne (n : Option K) (hne : x ≠ c) : (setNext c n L).next x = L.next x :=
  Function.update_of_ne hne ..
theorem setPrev_prev_of_ne (p : Option K) (hne : x ≠ c) : (setPrev c p L).prev x = L.prev x :=
  Function.update_of_ne hne ..

theorem Seg.setNext_of_not_mem (hs : Seg L p h l q n) (hc : c ∉ l) (m : Option K) :
    Seg (setNext c m L) p h l q n := by
  refine seg_congr hs fun x hx => ⟨rfl, setNext_next_of_ne _ ?_⟩
  rintro rfl
  exact hc hx

theorem Seg.setPrev_of_not_mem (hs : Seg L p h l q n) (hc : c ∉ l) (m : Option K) :
    Seg (setPrev c m L) p h l q n := by
  refine seg_congr hs fun x hx => ⟨setPrev_prev_of_ne _ ?_, rfl⟩
  rintro rfl
  exact hc hx

/-- The last node is linked to another node. -/
theorem Seg.setNext_last (hs : Seg L p h (l ++ [c]) q n) (hnd : (l ++ [c]).Nodup) (m : Option K) :
    Seg (setNext c m L) p h (l ++ [c]) q m := by
  have hc : c ∉ l := by
    intro hc
    exact (List.nodup_append.1 hnd).2.2 c hc c (List.mem_singleton.2 rfl) rfl
  rw [seg_snoc] at hs ⊢
  exact ⟨hs.1.setNext_of_not_mem hc m, setNext_next_self m, hs.2.2⟩

/-- The first node is linked to another node. -/
theorem Seg.setPrev_first (hs : Seg L p h (c :: l) q n) (hnd : (c :: l).Nodup) (m : Option K) :
    Seg (setPrev c m L) m h (c :: l) q n := by
  obtain ⟨hh, -, hs⟩ := hs
  exact ⟨hh, setPrev_prev_self m, hs.setPrev_of_not_mem (List.nodup_cons.1 hnd).1 m⟩

theorem IsList.pushBack (hd : IsList d l) (hnd : l.Nodup) (hc : c ∉ l) :
    ∃ d', pushBack c d = some d' ∧ IsList d' (l ++ [c]) := by
  unfold Dll.pushBack
  rcases List.eq_nil_or_concat l with rfl | ⟨l', t, rfl⟩
  · have hh : d.head = none := hd.1
    rw [hh]
    exact ⟨_, rfl, rfl, setPrev_prev_self _, (setNext_next_self none), rfl⟩
  · rw [List.concat_eq_append] at hd hnd hc ⊢
    have hct : c ≠ t := by
      rintro rfl
      exact hc (List.mem_append_right _ (List.mem_singleton.2 rfl))
    obtain ⟨h, hh⟩ : ∃ h, d.head = some h := by
      cases hh : d.head with
      | none => exact absurd (hd.first_none hh) (by simp)
      | some h => exact ⟨h, rfl⟩
    have ht : d.tail = some t := (seg_snoc.1 hd).2.2
    rw [hh, ht]
    refine ⟨_, rfl, ?_⟩
    unfold IsList at hd ⊢
    rw [seg_snoc]
    refine ⟨?_, setNext_next_self none, rfl⟩
    have hs := hd.setNext_last hnd (some c)
    rw [ht, hh] at hs
    have hs := (hs.setPrev_of_not_mem hc (some t)).setNext_of_not_mem hc none
    simpa using hs

theorem IsList.popFront {cs : List K} (hd : IsList d (c :: cs)) (hnd : (c :: cs).Nodup) :
    ∃ d', popFront d = some (c, d') ∧ IsList d' cs := by
  obtain ⟨hh, -, hs⟩ := hd
  unfold Dll.popFront
  rw [hh]
  simp only [Option.bind_eq_bind, Option.bind_some]
  cases cs with
  | nil =>
    rw [hs.1]
    exact ⟨_, rfl, rfl, rfl⟩
  | cons x xs =>
    have hx := hs.1
    rw [hx] at hs ⊢
    exact ⟨_, rfl, hs.setPrev_first (List.nodup_cons.1 hnd).2 none⟩

omit [DecidableEq K] in
/-- A node has no node before it exactly if it is the first. -/
theorem IsList.prev_isNone (hd : IsList d (l₁ ++ c :: l₂)) :
    (d.links.prev c).isNone = l₁.isEmpty := by
  unfold IsList at hd
  rw [seg_append] at hd
  obtain ⟨m, k, h₁, -, rfl, -⟩ := hd
  rcases List.eq_nil_or_concat l₁ with rfl | ⟨l', t, rfl⟩
  · rw [h₁.2]
    rfl
  · rw [List.concat_eq_append] at h₁ ⊢
    rw [(seg_snoc.1 h₁).2.2]
    simp

theorem IsList.unlink (hd : IsList d (l₁ ++ c :: l₂)) (hnd : (l₁ ++ c :: l₂).Nodup) :
    ∃ d', unlink c d = some d' ∧ IsList d' (l₁ ++ l₂) := by
  obtain ⟨hnd₁, hnd₂, hdisj⟩ := List.nodup_append.1 hnd
  have hc₂ : c ∉ l₂ := (List.nodup_cons.1 hnd₂).1
  have hc₁ : c ∉ l₁ := fun hc => hdisj c hc c List.mem_cons_self rfl
  unfold IsList at hd
  rw [seg_append] at hd
  obtain ⟨m, k, h₁, rfl, rfl, h₂⟩ := hd
  obtain ⟨e, he, hnext, hprev, htail, hseg₁, hseg₂⟩ : ∃ e :
    Dll K, unlinkPrev c d = some e ∧ e.links.next c = d.links.next c ∧
      e.links.prev = d.links.prev ∧ e.tail = d.tail ∧
        Seg e.links none e.head l₁ (d.links.prev c) (d.links.next c) ∧
      Seg e.links (some c) (d.links.next c) l₂ d.tail none := by
    unfold unlinkPrev
    cases hp : d.links.prev c with
    | none =>
      rw [hp] at h₁
      obtain rfl := h₁.last_none rfl
      exact ⟨_, if_pos h₁.1, rfl, rfl, rfl, ⟨rfl, rfl⟩, h₂⟩
    | some p =>
      rw [hp] at h₁
      rcases List.eq_nil_or_concat l₁ with rfl | ⟨l', t, rfl⟩
      · cases h₁.2
      · rw [List.concat_eq_append] at h₁ hnd₁ hdisj hc₁
        obtain rfl : p = t := Option.some.inj (seg_snoc.1 h₁).2.2
        rw [List.concat_eq_append]
        have hp₂ : p ∉ l₂ := fun hm =>
          hdisj p (List.mem_append_right _ (List.mem_singleton.2 rfl))
            p (List.mem_cons_of_mem _ hm) rfl
        have hcp : c ≠ p := by
          rintro rfl
          exact hc₁ (List.mem_append_right _ (List.mem_singleton.2 rfl))
        exact ⟨_, rfl, setNext_next_of_ne _ hcp, rfl, rfl,
          h₁.setNext_last hnd₁ _, h₂.setNext_of_not_mem hp₂ _⟩
  unfold Dll.unlink unlinkNext
  rw [he, Option.bind_some, hnext, hprev, htail]
  -- the links from behind `c`
  unfold IsList
  cases hn : d.links.next c with
  | none =>
    rw [hn] at hseg₁ hseg₂
    obtain rfl := hseg₂.first_none rfl
    rw [hseg₂.2]
    exact ⟨_, if_pos rfl, by simpa using hseg₁⟩
  | some x =>
    rw [hn] at hseg₁ hseg₂
    cases l₂ with
    | nil => cases hseg₂.1
    | cons y ys =>
      obtain rfl : x = y := Option.some.inj hseg₂.1
      refine ⟨_, rfl, seg_append.2 ⟨_, _, hseg₁.setPrev_of_not_mem ?_ _, ?_⟩⟩
      · intro hx
        exact hdisj x hx x (List.mem_cons_of_mem _ List.mem_cons_self) rfl
      · exact hseg₂.setPrev_first (List.nodup_cons.1 hnd₂).2 _

end Proofs

end Dll
