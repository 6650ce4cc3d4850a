import TinyBFT.Basic
import Mathlib.Data.List.Count
import Mathlib.Data.List.Induction
import Mathlib.Algebra.Order.Group.Int

/-!
# `K_max` (`K_max.h`): the `k`-th largest element

| here | there |
| --- | --- |
| `scanStep`, `scan` | the body of the `for` loop and the loop (`K_max.h:22-34`), on `cur_max` and `cur_count` |
| `kMaxFrom`  | the `while` loop (`K_max.h:21-39`); the fuel bounds its iterations, each of which counts an element |
| `kMax`      | `K_max` (`K_max.h:9-42`) |

The first iteration starts from `cur_max = -1`, the later ones from `0`.
-/

namespace TinyBFT

namespace KMax

/-- One element: `cur` is `(cur_max, cur_count)`. -/
def scanStep (lastMax : Int) (cur : Int × Nat) (cv : Int) : Int × Nat :=
  if cv = cur.1 then (cur.1, cur.2 + 1) else if cur.1 < cv ∧ cv < lastMax then (cv, 1) else cur

def scan (lastMax curMax : Int) (vector : List Int) : Int × Nat :=
  vector.foldl (scanStep lastMax) (curMax, 0)

def kMaxFrom (k : Nat) (vector : List Int) : Nat → Int → Nat → Int → Int
  | 0, lastMax, _, _ => lastMax
  | fuel + 1, lastMax, lastCount, curMax =>
    if lastCount < k then
      let cur := scan lastMax curMax vector
      kMaxFrom k vector fuel cur.1 (lastCount + cur.2) 0
    else lastMax

end KMax

def kMax (k : Nat) (vector : List Int) (tmax : Int) : Int := KMax.kMaxFrom k vector k tmax 0 (-1)

namespace KMax

variable {lastMax c : Int} {k : Nat} {vector : List Int}

/-- After a pass from `c`: the largest element below `lastMax`, and how often it occurs; `c` itself
where no element lies between. -/
theorem scan_spec (vector : List Int) (hc : c < lastMax) :
    (∀ x ∈ vector, x < lastMax → x ≤ (scan lastMax c vector).1) ∧
      ((scan lastMax c vector).1 = c ∨ (scan lastMax c vector).1 ∈ vector) ∧
      (scan lastMax c vector).1 < lastMax ∧
        (scan lastMax c vector).2 = vector.count (scan lastMax c vector).1 := by
  induction vector using List.reverseRecOn with
  | nil => simp [scan, hc]
  | append_singleton xs x ih =>
    obtain ⟨h1, h2, h3, h4⟩ := ih
    have hs : scan lastMax c (xs ++ [x]) = scanStep lastMax (scan lastMax c xs) x := by simp [scan]
    have hmem : ∀ y, y ∈ xs ++ [x] → y ∈ xs ∨ y = x := fun y hy => by simpa using hy
    have hkeep : (scan lastMax c xs).1 = c ∨ (scan lastMax c xs).1 ∈ xs ++ [x] :=
      h2.imp id fun h => List.mem_append_left _ h
    rw [hs]
    unfold scanStep
    split
    · rename_i hx
      refine ⟨fun y hy hlt => ?_, hkeep, h3, ?_⟩
      · rcases hmem y hy with hy | rfl
        · exact h1 y hy hlt
        · exact hx.le
      · simp [h4, hx]
    · rename_i hx
      split
      · rename_i hlt
        refine ⟨fun y hy hy' => ?_, .inr (by simp), hlt.2, ?_⟩
        · rcases hmem y hy with hy | rfl
          · exact (h1 y hy hy').trans hlt.1.le
          · exact le_rfl
        · -- `x` exceeds all earlier elements below `lastMax`
          have h0 : xs.count x = 0 := by
            rw [List.count_eq_zero]
            intro hmem'
            have := h1 x hmem' hlt.2
            omega
          simp [h0]
      · rename_i hge
        refine ⟨fun y hy hy' => ?_, hkeep, h3, ?_⟩
        · rcases hmem y hy with hy | rfl
          · exact h1 y hy hy'
          · by_contra hcon
            exact hge ⟨by omega, hy'⟩
        · simp [h4, hx]

/-- A pass only goes up. -/
theorem scan_mono (lastMax c : Int) (vector : List Int) : c ≤ (scan lastMax c vector).1 := by
  induction vector using List.reverseRecOn with
  | nil => exact le_rfl
  | append_singleton xs x ih =>
    have hs : scan lastMax c (xs ++ [x]) = scanStep lastMax (scan lastMax c xs) x := by simp [scan]
    rw [hs]
    unfold scanStep
    split
    · exact ih
    · split
      · exact ih.trans (by omega)
      · exact ih

theorem countP_le_eq (x : Int) :
    vector.countP (fun y => x ≤ y) = vector.count x + vector.countP (fun y => x < y) := by
  induction vector with
  | nil => simp
  | cons y ys ih =>
    simp only [List.countP_cons, List.count_cons, ih, beq_iff_eq, decide_eq_true_eq]
    rcases lt_trichotomy x y with h | h | h
    · simp [h, h.le, h.ne']
      omega
    · subst h
      simp
      omega
    · simp [not_le.2 h, not_lt.2 h.le, h.ne]

/-- Fewer than all elements are at least `m`, so one is smaller. -/
theorem exists_lt {m : Int} (hk : k ≤ vector.length) (h : vector.countP (fun y => m ≤ y) < k) :
    ∃ x ∈ vector, x < m := by
  by_contra hcon
  have hall : ∀ x ∈ vector, decide (m ≤ x) = true := by
    intro x hx
    by_contra hm
    exact hcon ⟨x, hx, by simpa using hm⟩
  have := List.countP_eq_length.2 hall
  omega

/-- The `k`-th largest element, with multiplicity. -/
def IsKth (k : Nat) (vector : List Int) (r : Int) : Prop :=
  k ≤ vector.countP (fun y => r ≤ y) ∧ vector.countP (fun y => r < y) < k

/-- A pass finds the next element down, if there is one from `c` on. -/
theorem scan_next {x : Int} (hc : c < lastMax) (hx : x ∈ vector) (hcx : c ≤ x)
    (hxlt : x < lastMax) :
    (scan lastMax c vector).1 ∈ vector ∧ x ≤ (scan lastMax c vector).1 ∧
      0 < (scan lastMax c vector).2 ∧
      vector.countP (fun y => (scan lastMax c vector).1 < y) =
        vector.countP (fun y => lastMax ≤ y) ∧
      vector.countP (fun y => lastMax ≤ y) + (scan lastMax c vector).2 =
        vector.countP (fun y => (scan lastMax c vector).1 ≤ y) := by
  obtain ⟨h1, h2, h3, h4⟩ := scan_spec vector hc
  have hle := h1 x hx hxlt
  have hmem : (scan lastMax c vector).1 ∈ vector := by
    rcases h2 with h2 | h2
    · have : x = (scan lastMax c vector).1 := by omega
      exact this ▸ hx
    · exact h2
  -- what exceeds the new value was counted before
  have hgt : vector.countP (fun y => (scan lastMax c vector).1 < y) =
    vector.countP (fun y => lastMax ≤ y) := by
    apply List.countP_congr
    intro y hy
    simp only [decide_eq_true_eq]
    constructor
    · intro hlt
      by_contra hcon
      have := h1 y hy (by omega)
      omega
    · intro hle
      omega
  refine ⟨hmem, hle, ?_, hgt, ?_⟩
  · rw [h4]
    exact List.count_pos_iff.2 hmem
  · have hsum := @countP_le_eq vector (scan lastMax c vector).1
    omega

/-- The loop, in a state where `lastCount` elements are at least `lastMax`. -/
theorem kMaxFrom_spec (hk : k ≤ vector.length) (hnn : ∀ x ∈ vector, 0 ≤ x) :
    ∀ (fuel lastCount : Nat) (lastMax c : Int), lastCount = vector.countP (fun y => lastMax ≤ y) →
      (lastCount < k → c < lastMax ∧ ∀ x ∈ vector, c ≤ x) →
        (k ≤ lastCount → vector.countP (fun y => lastMax < y) < k) →
      k ≤ lastCount + fuel → IsKth k vector (kMaxFrom k vector fuel lastMax lastCount c) := by
  intro fuel
  induction fuel with
  | zero =>
    intro lastCount lastMax c hcount _ hdone hfuel
    refine ⟨?_, hdone (by omega)⟩
    show k ≤ vector.countP (fun y => lastMax ≤ y)
    omega
  | succ fuel ih =>
    intro lastCount lastMax c hcount hlt hdone hfuel
    unfold kMaxFrom
    split
    swap
    · exact ⟨by omega, hdone (by omega)⟩
    rename_i hless
    obtain ⟨hc, hcle⟩ := hlt hless
    obtain ⟨x, hx, hxlt⟩ := exists_lt hk (hcount ▸ hless)
    obtain ⟨-, -, hpos, hgt, hnew⟩ := scan_next hc hx (hcle x hx) hxlt
    rw [← hcount] at hgt hnew
    refine ih _ _ _ hnew ?_ (fun _ => by omega) (by omega)
    intro hless'
    obtain ⟨y, hy, hylt⟩ := exists_lt hk (hnew ▸ hless')
    have := hnn y hy
    exact ⟨by omega, hnn⟩

/-- From the last value `0` on nothing is found any more. -/
theorem scan_zero (h : lastMax ≤ 0) : (scan lastMax 0 vector).1 = 0 := by
  induction vector using List.reverseRecOn with
  | nil => rfl
  | append_singleton xs x ih =>
    have hs : scan lastMax 0 (xs ++ [x]) = scanStep lastMax (scan lastMax 0 xs) x := by simp [scan]
    rw [hs]
    unfold scanStep
    rw [ih]
    split
    · rfl
    · rw [if_neg (by omega)]
      exact ih

/-- The result is at most `lastMax` if that is `0`, and the fuel is used up. -/
theorem kMaxFrom_zero : ∀ (fuel lastCount : Nat) (lastMax : Int),
    lastMax ≤ 0 → kMaxFrom k vector fuel lastMax lastCount 0 ≤ 0
  | 0, _, _, h => h
  | fuel + 1, lastCount, lastMax, h => by
    unfold kMaxFrom
    split
    · exact kMaxFrom_zero fuel _ _ (scan_zero h).le
    · exact h

/-- The loop, where elements may be too large to be counted. -/
theorem kMaxFrom_count (hk : k ≤ vector.length) (hnn : ∀ x ∈ vector, 0 ≤ x) :
    ∀ (fuel lastCount : Nat) (lastMax c : Int), lastCount ≤ vector.countP (fun y => lastMax ≤ y) →
      c < lastMax → c ≤ 0 →
      k ≤ lastCount + fuel →
        k ≤ vector.countP (fun y => kMaxFrom k vector fuel lastMax lastCount c ≤ y) := by
  have hall : ∀ r : Int, r ≤ 0 → k ≤ vector.countP fun y => r ≤ y := fun r hr => by
    rw [List.countP_eq_length.2 fun x hx => by simpa using hr.trans (hnn x hx)]
    exact hk
  intro fuel
  induction fuel with
  | zero =>
    intro lastCount lastMax c hcount _ _ hfuel
    exact (Nat.add_zero lastCount ▸ hfuel).trans hcount
  | succ fuel ih =>
    intro lastCount lastMax c hcount hc hc0 hfuel
    unfold kMaxFrom
    split
    swap
    · exact (not_lt.1 ‹_›).trans hcount
    obtain ⟨-, h2, h3, h4⟩ := scan_spec vector hc
    have hnew : lastCount + (scan lastMax c vector).2 ≤
      vector.countP (fun y => (scan lastMax c vector).1 ≤ y) := by
      rw [countP_le_eq, h4]
      have hmono : vector.countP (fun y => lastMax ≤ y) ≤
        vector.countP (fun y => (scan lastMax c vector).1 < y) :=
        List.countP_mono_left fun y _ hy => by
          have hy : lastMax ≤ y := of_decide_eq_true hy
          exact decide_eq_true (by omega)
      omega
    by_cases hpos : (scan lastMax c vector).1 ≤ 0
    · exact hall _ (kMaxFrom_zero _ _ _ hpos)
    · -- an element was found
      have hmem : (scan lastMax c vector).1 ∈ vector :=
        h2.resolve_left fun he => hpos (he.le.trans hc0)
      have hcnt : 0 < (scan lastMax c vector).2 := by
        rw [h4]
        exact List.count_pos_iff.2 hmem
      exact ih _ _ _ hnew (by omega) le_rfl (by omega)

/-- The `while` loop ends, and returns `r`. -/
inductive Exits (k : Nat) (vector : List Int) : Int → Nat → Int → Int → Prop
  | done {lastMax c : Int} {lastCount : Nat} (h : k ≤ lastCount) :
    Exits k vector lastMax lastCount c lastMax
  | pass {lastMax c r : Int} {lastCount : Nat} (h : lastCount < k)
      (ht : Exits k vector (scan lastMax c vector).1 (lastCount + (scan lastMax c vector).2) 0 r) :
        Exits k vector lastMax lastCount c r

/-- `K_max` returns `r`. -/
def Returns (k : Nat) (vector : List Int) (tmax r : Int) : Prop := Exits k vector tmax 0 (-1) r

theorem Exits.unique {lastCount : Nat} {r r' : Int} (h : Exits k vector lastMax lastCount c r)
    (h' : Exits k vector lastMax lastCount c r') :
    r = r' := by
  induction h with
  | done h =>
    cases h' with
    | done _ => rfl
    | pass h1 _ => omega
  | pass h _ ih =>
    cases h' with
    | done h1 => omega
    | pass _ ht => exact ih ht

/-- More elements than have been counted are not negative: one of them is still below `lastMax`. -/
theorem exists_nonneg_lt (vector : List Int) (lastMax : Int)
    (h : vector.countP (fun y => lastMax ≤ y) < vector.countP fun y => 0 ≤ y) :
    ∃ x ∈ vector, 0 ≤ x ∧ x < lastMax := by
  by_contra hcon
  have hle : vector.countP (fun y => 0 ≤ y) ≤ vector.countP fun y => lastMax ≤ y := by
    apply List.countP_mono_left
    intro x hx h0
    have h0 : 0 ≤ x := of_decide_eq_true h0
    by_contra hlt
    exact hcon ⟨x, hx, h0, by simpa using hlt⟩
  omega

/-- The loop ends if there are enough elements that are not negative: each pass finds one. -/
theorem exits_of_nonneg (hk : k ≤ vector.countP fun y => 0 ≤ y) (left : Nat) :
    ∀ (lastCount : Nat) (lastMax c : Int), lastCount = vector.countP (fun y => lastMax ≤ y) →
      c ≤ 0 → 0 ≤ lastMax →
      (k ≤ lastCount → vector.countP (fun y => lastMax < y) < k) → k ≤ lastCount + left →
      ∃ r, Exits k vector lastMax lastCount c r ∧ 0 ≤ r ∧ IsKth k vector r := by
  induction left with
  | zero =>
    intro lastCount lastMax c hcount _ h0 hdone hleft
    exact ⟨lastMax, .done (by omega), h0, by omega, hdone (by omega)⟩
  | succ left ih =>
    intro lastCount lastMax c hcount hc h0 hdone hleft
    by_cases hless : lastCount < k
    · obtain ⟨x, hx, hx0, hxlt⟩ := exists_nonneg_lt vector lastMax (by omega)
      obtain ⟨-, hle, hpos, hgt, hnew⟩ := scan_next (c := c) (by omega) hx (by omega) hxlt
      rw [← hcount] at hgt hnew
      obtain ⟨r, hr, hr0, hkth⟩ := ih _ _ 0 hnew le_rfl (by omega) (fun _ => by omega) (by omega)
      exact ⟨r, .pass hless hr, hr0, hkth⟩
    · exact ⟨lastMax, .done (by omega), h0, by omega, hdone (by omega)⟩

/-- **`K_max` with elements of -1**: it returns the `k`-th largest element if `k` elements are not
negative. -/
theorem returns_of_nonneg {tmax : Int} (hk0 : 1 ≤ k) (hk : k ≤ vector.countP fun y => 0 ≤ y)
    (h : ∀ x ∈ vector, x < tmax) :
    ∃ r, Returns k vector tmax r ∧ 0 ≤ r ∧ IsKth k vector r := by
  have hnone : vector.countP (fun y => tmax ≤ y) = 0 := by
    rw [List.countP_eq_zero]
    intro y hy
    have := h y hy
    simp
    omega
  obtain ⟨x, hx, hx0, hxlt⟩ := exists_nonneg_lt vector tmax (by omega)
  exact exits_of_nonneg hk k 0 tmax (-1) hnone.symm (by omega)
    (by omega) (fun h => by omega) (by omega)

/-- Once `0` is the last value, nothing is counted any more unless it is an element. -/
theorem not_exits_zero (h0 : (0 : Int) ∉ vector) {lastCount : Nat} {r : Int}
    (hless : lastCount < k) : ¬ Exits k vector 0 lastCount 0 r := by
  have hscan : scan 0 0 vector = (0, 0) := by
    induction vector using List.reverseRecOn with
    | nil => rfl
    | append_singleton xs x ih =>
      have hs : scan 0 0 (xs ++ [x]) = scanStep 0 (scan 0 0 xs) x := by simp [scan]
      rw [hs, ih fun h => h0 (List.mem_append_left _ h)]
      unfold scanStep
      rw [if_neg (by rintro rfl; simp at h0), if_neg (by omega)]
  have hrun : ∀ {lastMax c : Int} {lastCount : Nat}, Exits k vector lastMax lastCount c r →
    lastMax = 0 → c = 0 → lastCount < k → False := by
    intro lastMax c lastCount h
    induction h with
    | done h =>
      intro _ _ hless
      omega
    | pass _ _ ih =>
      rintro rfl rfl hless
      exact ih (by rw [hscan]) rfl (by rw [hscan]; exact hless)
  exact fun h => hrun h rfl rfl hless

/-- **`K_max` goes on for ever** if some elements are positive, none is 0 and fewer than `k` are not
negative. -/
theorem not_returns_of_few {tmax : Int} (h0 : (0 : Int) ∉ vector)
    (hpos : ∃ x ∈ vector, 0 ≤ x ∧ x < tmax) (htmax : ∀ x ∈ vector, x < tmax)
    (hfew : vector.countP (fun y => 0 ≤ y) < k) (r : Int) : ¬ Returns k vector tmax r := by
  have hle : ∀ lastMax : Int, 0 ≤ lastMax → vector.countP (fun y => lastMax ≤ y) < k :=
    fun lastMax hl =>
    (List.countP_mono_left fun y _ hy => by
      have hy : lastMax ≤ y := of_decide_eq_true hy
      exact decide_eq_true (by omega)).trans_lt hfew
  -- the passes that find an element, by what is left of them
  have hrun : ∀ {lastMax c : Int} {lastCount : Nat},
    Exits k vector lastMax lastCount c r → 0 < lastMax →
      lastCount = vector.countP (fun y => lastMax ≤ y) →
        (c = 0 ∨ c ≤ 0 ∧ ∃ x ∈ vector, 0 ≤ x ∧ x < lastMax) → False := by
    intro lastMax c lastCount h
    induction h with
    | @done lastMax c lastCount h =>
      intro hl hcount _
      have := hle lastMax hl.le
      omega
    | @pass lastMax c r lastCount h ht ih =>
      intro hl hcount hc
      by_cases hx : ∃ x ∈ vector, 0 ≤ x ∧ x < lastMax
      · obtain ⟨x, hx, hx0, hxlt⟩ := hx
        obtain ⟨hmem, hxle, -, -, hnew⟩ :=
          @scan_next lastMax c vector x (by omega) hx (by omega) hxlt
        have hne : (scan lastMax c vector).1 ≠ 0 := fun he => h0 (he ▸ hmem)
        exact ih (by omega) (by omega) (.inl rfl)
      · obtain rfl : c = 0 := hc.resolve_right fun h => hx h.2
        obtain ⟨-, h2, h3, h4⟩ := scan_spec vector hl
        have hzero : (scan lastMax 0 vector).1 = 0 := by
          rcases h2 with h2 | h2
          · exact h2
          · have hge := (scan_mono lastMax 0 vector)
            exact absurd ⟨_, h2, hge, h3⟩ hx
        rw [hzero, List.count_eq_zero.2 h0] at h4
        rw [hzero, h4, Nat.add_zero] at ht
        exact not_exits_zero h0 h ht
  intro h
  obtain ⟨x, hx, hx0, hxlt⟩ := hpos
  have hnone : vector.countP (fun y => tmax ≤ y) = 0 := by
    rw [List.countP_eq_zero]
    intro y hy
    have := htmax y hy
    simp
    omega
  exact hrun h (by omega) hnone.symm (.inr ⟨by omega, x, hx, hx0, hxlt⟩)

theorem IsKth.unique {r r' : Int} (h : IsKth k vector r) (h' : IsKth k vector r') : r = r' := by
  have hle : ∀ {a b : Int}, IsKth k vector a → IsKth k vector b → ¬ a < b := by
    intro a b ha hb hab
    have hmono : vector.countP (fun y => b ≤ y) ≤ vector.countP fun y => a < y := by
      apply List.countP_mono_left
      intro y _ hy
      have hy : b ≤ y := of_decide_eq_true hy
      exact decide_eq_true (by omega)
    have h1 := hb.1
    have h2 := ha.2
    omega
  have h1 := hle h h'
  have h2 := hle h' h
  omega

end KMax

/-- At least `k` elements are at least the result, whatever the elements are. -/
theorem kMax_le_countP {k : Nat} {vector : List Int} {tmax : Int} (hk : k ≤ vector.length)
    (htmax : 0 ≤ tmax) (h : ∀ x ∈ vector, 0 ≤ x) :
    k ≤ vector.countP fun y => kMax k vector tmax ≤ y :=
  KMax.kMaxFrom_count hk h k 0 tmax (-1) (Nat.zero_le _) (by omega) (by omega) (by omega)

/-- **`K_max` returns the `k`-th largest element**: at least `k` elements are at least the result
and fewer than `k` exceed it. -/
theorem kMax_isKth {k : Nat} {vector : List Int} {tmax : Int} (hk0 : 1 ≤ k) (hk : k ≤ vector.length)
    (h : ∀ x ∈ vector, 0 ≤ x ∧ x < tmax) : KMax.IsKth k vector (kMax k vector tmax) := by
  have hnone : vector.countP (fun y => tmax ≤ y) = 0 := by
    rw [List.countP_eq_zero]
    intro y hy
    have := (h y hy).2
    simp
    omega
  obtain ⟨x, hx, -⟩ := KMax.exists_lt (m := tmax) hk (by omega)
  have hx' := h x hx
  refine KMax.kMaxFrom_spec hk (fun y hy => (h y hy).1)
    k 0 tmax (-1) hnone.symm (fun _ => ⟨by omega, ?_⟩) (by omega)
    (by omega)
  intro y hy
  have := (h y hy).1
  omega

/-- **`K_max` ends, and returns the `k`-th largest element**, for every `k` up to the number of
elements: at least `k` elements are at least the result and fewer than `k` exceed it. -/
theorem kMax_returns {k : Nat} {vector : List Int} {tmax : Int} (hk0 : 1 ≤ k)
    (hk : k ≤ vector.length) (h : ∀ x ∈ vector, 0 ≤ x ∧ x < tmax) :
    KMax.Returns k vector tmax (kMax k vector tmax) ∧
      k ≤ vector.countP (fun y => kMax k vector tmax ≤ y) ∧
        vector.countP (fun y => kMax k vector tmax < y) < k := by
  have hall : vector.countP (fun y => 0 ≤ y) = vector.length :=
    List.countP_eq_length.2 fun x hx => decide_eq_true (h x hx).1
  obtain ⟨r, hr, -, hkth⟩ := KMax.returns_of_nonneg hk0 (hall ▸ hk) fun x hx => (h x hx).2
  have hmax : KMax.IsKth k vector (kMax k vector tmax) := kMax_isKth hk0 hk h
  rw [hmax.unique hkth]
  exact ⟨hr, hkth⟩

/-- With repeated values and zeros. -/
theorem kMax_returns_repeated :
    KMax.Returns 3 [0, 5, 2, 5, 0] 10 (kMax 3 [0, 5, 2, 5, 0] 10) ∧ kMax 3 [0, 5, 2, 5, 0] 10 = 2 :=
  ⟨(kMax_returns (by decide) (by decide) (by decide)).1, by decide⟩

end TinyBFT
