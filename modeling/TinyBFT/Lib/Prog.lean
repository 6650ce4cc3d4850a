import Mathlib.Logic.Relation
import Mathlib.Order.Defs.Unbundled

/-!
# Programs that may stop

A C++ member function with assertions is a *program* on the state of its object: it returns a value,
or stops at a failed assertion. Unlike in `StateT σ Option`, a program that stops still leaves a
state: what it did before (messages it sent) has happened.

The logic is one predicate, `Reaches R C x s Q`: run from `s`, the program `x` moves along steps of
a relation `R`, and if it returns, its value and its state meet `Q`; if it stops, it does so after a
last *crash* step of `C`. Proofs about a program are forward symbolic executions (`bind`,
`get_bind`, `modify_bind`, …); what every step of `R` and `C` keeps, the program then keeps
(`Reaches.invariant`).
-/

/-- A program on the state `σ` with results in `α`; `none` means that it stopped. -/
def Prog (σ α : Type) := σ → Option α × σ

namespace Prog

variable {σ τ α β ι : Type}

instance : Monad (Prog σ) where
  pure a := fun s => (some a, s)
  bind x f := fun s =>
    match x s with
    | (some a, t) => f a t
    | (none, t) => (none, t)

def get : Prog σ σ := fun s => (some s, s)

def modify (g : σ → σ) : Prog σ Unit := fun s => (some (), g s)

def stop : Prog σ α := fun s => (none, s)

/-- `th_assert`. -/
def assert (b : Bool) : Prog σ Unit := fun s => (if b then some () else none, s)

/-- The value of a partial function; the program stops where there is none. -/
def ofOption (o : Option α) : Prog σ α := fun s => (o, s)

def when (b : Bool) (x : Prog σ Unit) : Prog σ Unit := if b then x else pure ()

/-- Run `x` for the elements of a list, in order. -/
def each (x : ι → Prog σ Unit) : List ι → Prog σ Unit
  | [] => pure ()
  | i :: is => do
    x i
    each x is

/-- Run `x` for the elements of a list until it returns `true` (a loop with a `break` or a `return`
in it). -/
def eachUntil (x : ι → Prog σ Bool) : List ι → Prog σ Bool
  | [] => pure false
  | i :: is => do
    let done ← x i
    if done then pure true else eachUntil x is

/-- Run `x` for the elements of a list, in order, and collect the values that there are. -/
def collect (x : ι → Prog σ (Option β)) : List ι → Prog σ (List β)
  | [] => pure []
  | i :: is => do
    let o ← x i
    let bs ← collect x is
    pure (o.toList ++ bs)

/-- The state that `x` leaves. -/
def after (x : Prog σ α) (s : σ) : σ := (x s).2

/-! ## Equations -/

@[simp] theorem pure_apply (a : α) (s : σ) : (pure a : Prog σ α) s = (some a, s) := rfl

theorem bind_apply (x : Prog σ α) (f : α → Prog σ β) (s : σ) :
    (x >>= f) s = match x s with | (some a, t) => f a t | (none, t) => (none, t) := rfl

@[simp] theorem get_bind_apply (f : σ → Prog σ β) (s : σ) : ((get : Prog σ σ) >>= f) s = f s s :=
  rfl

@[simp] theorem modify_bind_apply (g : σ → σ) (f : Unit → Prog σ β) (s : σ) :
    (modify g >>= f) s = f () (g s) := rfl

@[simp] theorem stop_apply (s : σ) : (stop : Prog σ α) s = (none, s) := rfl

theorem bind_of_none {x : Prog σ α} {f : α → Prog σ β} {s t : σ} (h : x s = (none, t)) :
    (x >>= f) s = (none, t) := by
  simp [bind_apply, h]

/-- A returning `x >>= f` is a returning `x` and then a returning `f`. -/
theorem bind_eq_some {x : Prog σ α} {f : α → Prog σ β} {s t : σ} {b : β} :
    (x >>= f) s = (some b, t) ↔ ∃ a u, x s = (some a, u) ∧ f a u = (some b, t) := by
  rw [bind_apply]
  constructor
  · intro h
    split at h
    · rename_i a u hx
      exact ⟨a, u, hx, h⟩
    · cases h
  · rintro ⟨a, u, hx, hf⟩
    rw [hx]
    exact hf

/-! ## Programs as sequences of steps -/

variable (R C : σ → σ → Prop)

/-- From `s` the program takes steps of `R`; if it returns, then with `Q`, and if it stops, then
after a step of `C`. -/
def Reaches (x : Prog σ α) (s : σ) (Q : α → σ → Prop) : Prop :=
  match x s with
  | (some a, t) => Relation.ReflTransGen R s t ∧ Q a t
  | (none, t) => ∃ u, Relation.ReflTransGen R s u ∧ C u t

variable {R C} {x : Prog σ α} {f : α → Prog σ β} {s t : σ} {Q Q' : α → σ → Prop} {S : β → σ → Prop}

theorem Reaches.pure {a : α} (h : Q a s) : Reaches R C (Pure.pure a) s Q := ⟨.refl, h⟩

theorem Reaches.bind (hx : Reaches R C x s Q)
    (hf : ∀ a t, Relation.ReflTransGen R s t → Q a t → Reaches R C (f a) t S) :
    Reaches R C (x >>= f) s S := by
  unfold Reaches at hx ⊢
  rw [bind_apply]
  cases hs : x s with
  | mk o u =>
    rw [hs] at hx
    cases o with
    | none => exact hx
    | some a =>
      have := hf a u hx.1 hx.2
      unfold Reaches at this
      simp only
      cases ht : f a u with
      | mk o w =>
        rw [ht] at this
        cases o with
        | none =>
          obtain ⟨z, hz, hc⟩ := this
          exact ⟨z, hx.1.trans hz, hc⟩
        | some b => exact ⟨hx.1.trans this.1, this.2⟩

theorem Reaches.mono (hx : Reaches R C x s Q) (h : ∀ a t, Q a t → Q' a t) : Reaches R C x s Q' := by
  unfold Reaches at hx ⊢
  cases hs : x s with
  | mk o u =>
    rw [hs] at hx
    cases o with
    | none => exact hx
    | some a => exact ⟨hx.1, h a u hx.2⟩

theorem Reaches.get_bind {f : σ → Prog σ β} (h : Reaches R C (f s) s S) :
    Reaches R C (Prog.get >>= f) s S := h

theorem Reaches.modify {g : σ → σ} {Q : Unit → σ → Prop} (hR : R s (g s)) (h : Q () (g s)) :
    Reaches R C (Prog.modify g) s Q := ⟨.single hR, h⟩

theorem Reaches.modify_bind {g : σ → σ} {f : Unit → Prog σ β} (hR : R s (g s))
    (h : Reaches R C (f ()) (g s) S) :
    Reaches R C (Prog.modify g >>= f) s S :=
  Reaches.bind (Q := fun _ t => t = g s) (.modify hR rfl) fun _ _ _ ht => ht ▸ h

theorem Reaches.stop (hC : C s s) : Reaches R C (Prog.stop : Prog σ α) s Q := ⟨s, .refl, hC⟩

theorem Reaches.assert_bind {b : Bool} {f : Unit → Prog σ β} (hC : C s s)
    (h : b = true → Reaches R C (f ()) s S) : Reaches R C (Prog.assert b >>= f) s S := by
  cases b with
  | false => exact ⟨s, .refl, hC⟩
  | true => exact h rfl

theorem Reaches.ofOption_bind {o : Option α} (hC : C s s)
    (h : ∀ a, o = some a → Reaches R C (f a) s S) : Reaches R C (Prog.ofOption o >>= f) s S := by
  cases o with
  | none => exact ⟨s, .refl, hC⟩
  | some a => exact h a rfl

theorem Reaches.some_bind {o : Option α} {a : α} (ho : o = some a) (h : Reaches R C (f a) s S) :
    Reaches R C (Prog.ofOption o >>= f) s S := by
  subst ho
  exact h

theorem Reaches.true_bind {b : Bool} {f : Unit → Prog σ β} (hb : b = true)
    (h : Reaches R C (f ()) s S) :
    Reaches R C (Prog.assert b >>= f) s S := by
  subst hb
  exact h

theorem Reaches.ofOption {o : Option α} (hC : C s s) (h : ∀ a, o = some a → Q a s) :
    Reaches R C (Prog.ofOption o) s Q := by
  cases o with
  | none => exact ⟨s, .refl, hC⟩
  | some a => exact ⟨.refl, h a rfl⟩

theorem Reaches.when {b : Bool} {x : Prog σ Unit} {Q : Unit → σ → Prop}
    (h1 : b = true → Reaches R C x s Q) (h2 : b = false → Q () s) :
    Reaches R C (Prog.when b x) s Q := by
  cases b with
  | false => exact ⟨.refl, h2 rfl⟩
  | true => exact h1 rfl

theorem Reaches.ite {p : Prop} [Decidable p] {y z : Prog σ α} (h1 : p → Reaches R C y s Q)
    (h2 : ¬p → Reaches R C z s Q) :
    Reaches R C (if p then y else z) s Q := by
  split
  · exact h1 ‹_›
  · exact h2 ‹_›

/-- **Loop rule.** `I is t`: in state `t` the elements `is` are still to come. -/
theorem Reaches.each {x : ι → Prog σ Unit} {I : List ι → σ → Prop}
    (hstep : ∀ i is t, I (i :: is) t → Reaches R C (x i) t fun _ u => I is u) :
    ∀ (is : List ι) (s : σ), I is s → Reaches R C (Prog.each x is) s fun _ t => I [] t
  | [], _, hi => .pure hi
  | i :: is, s, hi => .bind (hstep i is s hi) fun _ t _ ht => Reaches.each hstep is t ht

/-- The loop rule for a loop that collects values. -/
theorem Reaches.collect {x : ι → Prog σ (Option β)} {I : σ → Prop} :
    ∀ (is : List ι) (s : σ), (∀ i ∈ is, ∀ t, I t → Reaches R C (x i) t fun _ u => I u) → I s →
      Reaches R C (Prog.collect x is) s fun _ t => I t
  | [], _, _, hi => .pure hi
  | i :: is, s, hstep, hi => .bind (hstep i (by simp) s hi) fun _ t _ ht =>
    .bind (Reaches.collect is t (fun i hmem => hstep i (by simp [hmem])) ht)
      fun _ _ _ hu => .pure hu

/-- The loop rule for a loop that may end early; `E` holds where it does. -/
theorem Reaches.eachUntil {x : ι → Prog σ Bool} {I : List ι → σ → Prop} {E : σ → Prop}
    (hstep : ∀ i is t, I (i :: is) t → Reaches R C (x i) t fun b u => if b then E u else I is u) :
    ∀ (is : List ι) (s : σ), I is s → Reaches R C (Prog.eachUntil x is) s
      fun b t => if b then E t else I [] t
  | [], _, hi => .pure (by simpa using hi)
  | i :: is, s, hi => by
    refine .bind (hstep i is s hi) fun b t _ ht => ?_
    cases b with
    | true => exact .pure (by simpa using ht)
    | false => exact Reaches.eachUntil hstep is t (by simpa using ht)

/-- Run from `s`, the program returns with `Q`, or stops with `E`: the case where only the end of a
run is of interest. -/
abbrev Ensures (x : Prog σ α) (s : σ) (Q : α → σ → Prop) (E : σ → Prop) : Prop :=
  Reaches (fun _ _ => True) (fun _ t => E t) x s Q

theorem Ensures.bind {E : σ → Prop} (hx : Ensures x s Q E)
    (hf : ∀ a t, Q a t → Ensures (f a) t S E) :
    Ensures (x >>= f) s S E := Reaches.bind hx fun a t _ h => hf a t h

/-- What a program ensures, of its result. -/
theorem Ensures.result {E : σ → Prop} (hx : Ensures x s Q E) :
    (∀ a, (x s).1 = some a → Q a (x s).2) ∧ ((x s).1 = none → E (x s).2) := by
  unfold Ensures Reaches at hx
  cases hxs : x s with
  | mk o u =>
    rw [hxs] at hx
    cases o with
    | none =>
      obtain ⟨_, -, h⟩ := hx
      exact ⟨by simp, fun _ => h⟩
    | some a => exact ⟨fun _ h => by cases h; exact hx.2, by simp⟩

/-- What holds where the program returns and where it stops. -/
theorem Ensures.after {I : σ → Prop} (hx : Ensures x s (fun _ t => I t) I) : I (x.after s) := by
  unfold Prog.after
  cases hr : (x s).1 with
  | some a => exact hx.result.1 a hr
  | none => exact hx.result.2 hr

theorem Ensures.of_result {E : σ → Prop} (h1 : ∀ a, (x s).1 = some a → Q a (x s).2)
    (h2 : (x s).1 = none → E (x s).2) :
    Ensures x s Q E := by
  unfold Ensures Reaches
  cases hxs : x s with
  | mk o u =>
    rw [hxs] at h1 h2
    cases o with
    | none => exact ⟨s, .refl, h2 rfl⟩
    | some a => exact ⟨.single trivial, h1 a rfl⟩

/-- A program ensures what it ensures together. -/
theorem Ensures.and {E E' : σ → Prop} (h : Ensures x s Q E) (h' : Ensures x s Q' E') :
    Ensures x s (fun a t => Q a t ∧ Q' a t) fun t => E t ∧ E' t :=
  .of_result (fun a ha => ⟨h.result.1 a ha, h'.result.1 a ha⟩)
    fun hn => ⟨h.result.2 hn, h'.result.2 hn⟩

theorem Ensures.imp {E E' : σ → Prop} (h : Ensures x s Q E) (hQ : ∀ a t, Q a t → Q' a t)
    (hE : ∀ t, E t → E' t) :
    Ensures x s Q' E' :=
  .of_result (fun a ha => hQ a _ (h.result.1 a ha)) fun hn => hE _ (h.result.2 hn)

/-- A program that runs as another one does, from another state. -/
theorem Ensures.of_apply {E : σ → Prop} {y : Prog σ α} (h : x s = y t) (hy : Ensures y t Q E) :
    Ensures x s Q E := by
  refine .of_result (fun a ha => ?_) fun hn => ?_
  · rw [h] at ha ⊢
    exact hy.result.1 a ha
  · rw [h] at hn ⊢
    exact hy.result.2 hn

theorem Reaches.weaken {R' C' : σ → σ → Prop} (hx : Reaches R C x s Q) (hR : ∀ s t, R s t → R' s t)
    (hC : ∀ s t, C s t → C' s t) : Reaches R' C' x s Q := by
  unfold Reaches at hx ⊢
  cases hs : x s with
  | mk o u =>
    rw [hs] at hx
    cases o with
    | none =>
      obtain ⟨w, hw, hc⟩ := hx
      exact ⟨w, Relation.ReflTransGen.mono hR _ _ hw, hC _ _ hc⟩
    | some a => exact ⟨Relation.ReflTransGen.mono hR _ _ hx.1, hx.2⟩

/-- What every step keeps holds after any number of steps. -/
theorem invariant_of_steps {I : σ → Prop} (hR : ∀ s t, I s → R s t → I t) (hs : I s)
    (h : Relation.ReflTransGen R s t) : I t := by
  induction h with
  | refl => exact hs
  | tail _ hst ih => exact hR _ _ ih hst

/-- **Invariant rule.** If every step keeps `I`, and a crash from `I` leaves `J`, then a program
that returns keeps `I`, and one that stops leaves `J`. -/
theorem Reaches.invariant {I J : σ → Prop} (hR : ∀ s t, I s → R s t → I t)
    (hC : ∀ s t, I s → C s t → J t) (hx : Reaches R C x s Q) (hs : I s) :
    (∀ a, (x s).1 = some a → I (x s).2) ∧ ((x s).1 = none → J (x s).2) := by
  unfold Reaches at hx
  cases hxs : x s with
  | mk o u =>
    rw [hxs] at hx
    cases o with
    | none =>
      obtain ⟨w, hw, hc⟩ := hx
      exact ⟨by simp, fun _ => hC _ _ (invariant_of_steps hR hs hw) hc⟩
    | some a => exact ⟨fun _ _ => invariant_of_steps hR hs hx.1, by simp⟩

/-! ## Programs that stay within a relation -/

/-- A program that returns leaves a state related to the first by `R`, one that stops by `C`. -/
def Within (R C : σ → σ → Prop) (x : Prog σ α) (s : σ) : Prop :=
  Ensures x s (fun _ t => R s t) (C s)

/-- `R` composes, with itself and with a crash. -/
structure Composes (R C : σ → σ → Prop) : Prop where
  step : ∀ {s t u}, R s t → R t u → R s u
  crash : ∀ {s t u}, R s t → C t u → C s u

namespace Within

theorem of_ensures (h : Ensures x s (fun _ t => R s t) (C s)) : Within R C x s := h

theorem pure {a : α} (h : R s s) : Within R C (Pure.pure a : Prog σ α) s := by
  unfold Within
  exact Reaches.pure h

theorem after_step (hRC : Composes R C) {x : Prog σ α} (hst : R s t) (hx : Within R C x t) :
    Ensures x t (fun _ u => R s u) (C s) :=
  (Reaches.mono hx fun _ _ h => hRC.step hst h).weaken (fun _ _ h => h) fun _ _ h => hRC.crash hst h

theorem bind (hRC : Composes R C) (hx : Within R C x s) (hf : ∀ a t, R s t → Within R C (f a) t) :
    Within R C (x >>= f) s := Ensures.bind hx fun a t hst => (hf a t hst).after_step hRC hst

theorem get_bind {f : σ → Prog σ β} (h : Within R C (f s) s) : Within R C (Prog.get >>= f) s := h

theorem modify {g : σ → σ} (h : R s (g s)) : Within R C (Prog.modify g) s := by
  unfold Within
  exact Reaches.modify trivial h

theorem modify_bind (hRC : Composes R C) {g : σ → σ} {f : Unit → Prog σ β} (h : R s (g s))
    (hf : Within R C (f ()) (g s)) :
    Within R C (Prog.modify g >>= f) s := Reaches.modify_bind trivial (hf.after_step hRC h)

theorem assert_bind {b : Bool} {f : Unit → Prog σ β} (hC : C s s)
    (h : b = true → Within R C (f ()) s) :
    Within R C (Prog.assert b >>= f) s := Reaches.assert_bind hC h

theorem ofOption_bind {o : Option α} (hC : C s s) (h : ∀ a, o = some a → Within R C (f a) s) :
    Within R C (Prog.ofOption o >>= f) s := Reaches.ofOption_bind hC h

theorem when {b : Bool} {x : Prog σ Unit} (hR : R s s) (h : b = true → Within R C x s) :
    Within R C (Prog.when b x) s :=
  Reaches.when h fun _ => hR

theorem ite {p : Prop} [Decidable p] {y z : Prog σ α} (h1 : p → Within R C y s)
    (h2 : ¬p → Within R C z s) :
    Within R C (if p then y else z) s := Reaches.ite h1 h2

theorem each (hRC : Composes R C) {x : ι → Prog σ Unit} (hR : R s s)
    (hx : ∀ i t, R s t → Within R C (x i) t) (is : List ι) :
    Within R C (Prog.each x is) s :=
  (Reaches.each (I := fun _ t => R s t) (fun i _ t ht => (hx i t ht).after_step hRC ht) is s hR)

theorem eachUntil (hRC : Composes R C) {x : ι → Prog σ Bool} (hR : R s s)
    (hx : ∀ i t, R s t → Within R C (x i) t) (is : List ι) :
    Within R C (Prog.eachUntil x is) s := by
  refine Reaches.mono (Reaches.eachUntil (I := fun _ t => R s t)
    (E := fun t => R s t) (fun i _ t ht => ?_) is s hR) ?_
  · exact ((hx i t ht).after_step hRC ht).mono fun b u h => by cases b <;> exact h
  · intro b t h
    cases b <;> exact h

end Within

/-! ## Programs that stay within a preorder -/

/-- From wherever it is run, the program leaves a state related to the first by `R`, also where it
stops. -/
def Always (R : σ → σ → Prop) (x : Prog σ α) : Prop := ∀ s, Within R R x s

namespace Always

variable {R : σ → σ → Prop}

theorem get_bind {f : σ → Prog σ β} (hf : ∀ s, Always R (f s)) : Always R (Prog.get >>= f) :=
  fun s => .get_bind (hf s s)

theorem modify {g : σ → σ} (hg : ∀ s, R s (g s)) : Always R (Prog.modify g) :=
  fun s => .modify (hg s)

theorem ite {c : Prop} [Decidable c] {y z : Prog σ α} (hy : Always R y) (hz : Always R z) :
    Always R (if c then y else z) := fun s =>
  .ite (fun _ => hy s) fun _ => hz s

/-- The state that the program leaves. -/
theorem result (hx : Always R x) (s : σ) : R s (x s).2 := Ensures.after (hx s)

variable [IsPreorder σ R]

theorem composes : Composes R R := ⟨IsTrans.trans _ _ _, IsTrans.trans _ _ _⟩

theorem pure {a : α} : Always R (Pure.pure a : Prog σ α) := fun s => .pure (refl_of R s)

theorem bind (hx : Always R x) (hf : ∀ a, Always R (f a)) : Always R (x >>= f) :=
  fun s => .bind composes (hx s) fun a t _ => hf a t

theorem modify_bind {g : σ → σ} {f : Unit → Prog σ β} (hg : ∀ s, R s (g s)) (hf : Always R (f ())) :
    Always R (Prog.modify g >>= f) := bind (modify hg) fun _ => hf

theorem assert_bind {b : Bool} {f : Unit → Prog σ β} (hf : Always R (f ())) :
    Always R (Prog.assert b >>= f) := fun s =>
  .assert_bind (refl_of R s) fun _ => hf s

theorem assert {b : Bool} : Always R (Prog.assert b) :=
  fun s => Ensures.of_result (fun _ _ => refl_of R s) fun _ => refl_of R s

theorem ofOption_bind {o : Option α} (hf : ∀ a, Always R (f a)) :
    Always R (Prog.ofOption o >>= f) := fun s =>
  .ofOption_bind (refl_of R s) fun a _ => hf a s

theorem ofOption {o : Option α} : Always R (Prog.ofOption o : Prog σ α) := fun s =>
  Ensures.of_result (fun _ _ => refl_of R s) fun _ => refl_of R s

theorem stop : Always R (Prog.stop : Prog σ α) := fun s => .of_ensures (Reaches.stop (refl_of R s))

theorem when {b : Bool} {x : Prog σ Unit} (hx : Always R x) : Always R (Prog.when b x) :=
  fun s => .when (refl_of R s) fun _ => hx s

theorem each {x : ι → Prog σ Unit} (hx : ∀ i, Always R (x i)) (is : List ι) :
    Always R (Prog.each x is) := fun s =>
  .each composes (refl_of R s) (fun i t _ => hx i t) is

end Always

/-! ## Programs that keep an invariant -/

/-- Run where `I` holds, the program returns with `I`, or stops with `E`. -/
def Holds (I E : σ → Prop) (x : Prog σ α) : Prop := ∀ s, I s → Ensures x s (fun _ t => I t) E

namespace Holds

variable {I E : σ → Prop}

theorem pure {a : α} : Holds I E (Pure.pure a : Prog σ α) := fun _ hs => Reaches.pure hs

theorem bind (hx : Holds I E x) (hf : ∀ a, Holds I E (f a)) : Holds I E (x >>= f) := fun s hs =>
  Ensures.bind (hx s hs) fun a t ht => hf a t ht

theorem get_bind {f : σ → Prog σ β} (hf : ∀ s, Holds I E (f s)) : Holds I E (Prog.get >>= f) :=
  fun s hs =>
  Reaches.get_bind (hf s s hs)

theorem modify {g : σ → σ} (hg : ∀ s, I s → I (g s)) : Holds I E (Prog.modify g) := fun s hs =>
  Reaches.modify trivial (hg s hs)

theorem modify_bind {g : σ → σ} {f : Unit → Prog σ β} (hg : ∀ s, I s → I (g s))
    (hf : Holds I E (f ())) :
    Holds I E (Prog.modify g >>= f) := fun s hs => Reaches.modify_bind trivial (hf _ (hg s hs))

theorem assert_bind {b : Bool} {f : Unit → Prog σ β} (hE : ∀ s, I s → E s)
    (hf : b = true → Holds I E (f ())) :
    Holds I E (Prog.assert b >>= f) :=
  fun s hs => Reaches.assert_bind (hE s hs) fun hb => hf hb s hs

theorem ofOption_bind {o : Option α} (hE : ∀ s, I s → E s) (hf : ∀ a, Holds I E (f a)) :
    Holds I E (Prog.ofOption o >>= f) :=
  fun s hs => Reaches.ofOption_bind (hE s hs) fun a _ => hf a s hs

theorem when {b : Bool} {x : Prog σ Unit} (hx : b = true → Holds I E x) :
    Holds I E (Prog.when b x) := fun s hs =>
  Reaches.when (fun hb => hx hb s hs) fun _ => hs

theorem ite {p : Prop} [Decidable p] {y z : Prog σ α} (hy : p → Holds I E y)
    (hz : ¬p → Holds I E z) :
    Holds I E (if p then y else z) :=
  fun s hs => Reaches.ite (fun hp => hy hp s hs) fun hp => hz hp s hs

theorem each {x : ι → Prog σ Unit} (hx : ∀ i, Holds I E (x i)) (is : List ι) :
    Holds I E (Prog.each x is) := fun s hs =>
  Reaches.each (I := fun _ => I) (fun i _ t ht => hx i t ht) is s hs

theorem eachUntil {x : ι → Prog σ Bool} (hx : ∀ i, Holds I E (x i)) (is : List ι) :
    Holds I E (Prog.eachUntil x is) := by
  intro s hs
  refine Reaches.mono (Reaches.eachUntil (I := fun _ => I) (E := I) (fun i _ t ht => ?_) is s hs)
    fun b t ht => ?_
  · exact Reaches.mono (hx i t ht) fun b u hu => by cases b <;> exact hu
  · cases b <;> exact ht

/-- A program whose steps `I` does not notice. -/
theorem of_within {R : σ → σ → Prop} (hx : ∀ s, Within R R x s) (hI : ∀ s t, R s t → I s → I t)
    (hE : ∀ s, I s → E s) :
    Holds I E x :=
  fun s hs => Ensures.imp (hx s) (fun _ t ht => hI s t ht hs) fun t ht => hE t (hI s t ht hs)

end Holds

/-! ## Programs that do the same -/

/-- Run from `s`, `x` does what `y` does, and if they return, then with `Q`. -/
def Agrees (x y : Prog σ α) (s : σ) (Q : α → σ → Prop) : Prop :=
  x s = y s ∧ Ensures y s Q fun _ => True

namespace Agrees

variable {y : Prog σ α} {g : α → Prog σ β}

theorem of_ensures (h : Ensures x s Q fun _ => True) : Agrees x x s Q := ⟨rfl, h⟩

theorem mono (h : Agrees x y s Q) (hQ : ∀ a t, Q a t → Q' a t) : Agrees x y s Q' :=
  ⟨h.1, Reaches.mono h.2 hQ⟩

/-- Programs that run as two others do, from another state. -/
theorem of_apply {p q : Prog σ α} (hx : x s = p t) (hy : y s = q t) (h : Agrees p q t Q) :
    Agrees x y s Q :=
  ⟨by rw [hx, hy, h.1], Ensures.of_apply hy h.2⟩

/-- A program that stays within a preorder. -/
theorem of_always {R : σ → σ → Prop} (hx : Always R x) (hQ : ∀ a t, R s t → Q a t) :
    Agrees x x s Q :=
  of_ensures (Ensures.imp (hx s) hQ fun _ _ => trivial)

theorem pure {a : α} (h : Q a s) : Agrees (Pure.pure a) (Pure.pure a) s Q := ⟨rfl, Reaches.pure h⟩

theorem bind (h : Agrees x y s Q) (hf : ∀ a t, Q a t → Agrees (f a) (g a) t S) :
    Agrees (x >>= f) (y >>= g) s S := by
  refine ⟨?_, Ensures.bind h.2 fun a t ht => (hf a t ht).2⟩
  rw [bind_apply, bind_apply, h.1]
  have hres := h.2.result.1
  cases hy : y s with
  | mk o t =>
    rw [hy] at hres
    cases o with
    | none => rfl
    | some a => exact (hf a t (hres a rfl)).1

theorem get_bind {f g : σ → Prog σ β} (h : Agrees (f s) (g s) s S) :
    Agrees (Prog.get >>= f) (Prog.get >>= g) s S := h

theorem modify {h : σ → σ} {Q : Unit → σ → Prop} (hQ : Q () (h s)) :
    Agrees (Prog.modify h) (Prog.modify h) s Q :=
  ⟨rfl, Reaches.modify trivial hQ⟩

theorem modify_bind {h : σ → σ} {f g : Unit → Prog σ β} (hf : Agrees (f ()) (g ()) (h s) S) :
    Agrees (Prog.modify h >>= f) (Prog.modify h >>= g) s S :=
  ⟨hf.1, Reaches.modify_bind trivial hf.2⟩

theorem assert_bind {b : Bool} {f g : Unit → Prog σ β} (h : b = true → Agrees (f ()) (g ()) s S) :
    Agrees (Prog.assert b >>= f) (Prog.assert b >>= g) s S := by
  cases b with
  | false => exact ⟨rfl, Reaches.assert_bind trivial nofun⟩
  | true => exact h rfl

theorem ofOption_bind {o : Option α} (h : ∀ a, o = some a → Agrees (f a) (g a) s S) :
    Agrees (Prog.ofOption o >>= f) (Prog.ofOption o >>= g) s S := by
  cases o with
  | none => exact ⟨rfl, Reaches.ofOption_bind trivial nofun⟩
  | some a => exact h a rfl

theorem when {b : Bool} {x y : Prog σ Unit} {Q : Unit → σ → Prop} (h1 : b = true → Agrees x y s Q)
    (h2 : b = false → Q () s) :
    Agrees (Prog.when b x) (Prog.when b y) s Q := by
  cases b with
  | false => exact pure (h2 rfl)
  | true => exact h1 rfl

theorem ite {p : Prop} [Decidable p] {x x' y y' : Prog σ α} (h1 : p → Agrees x y s Q)
    (h2 : ¬p → Agrees x' y' s Q) :
    Agrees (if p then x else x') (if p then y else y') s Q := by
  split
  · exact h1 ‹_›
  · exact h2 ‹_›

/-- **Loop rule**: the two bodies agree where the invariant holds, and keep it. -/
theorem each {x y : ι → Prog σ Unit} {I : σ → Prop} {is : List ι}
    (hstep : ∀ i ∈ is, ∀ t, I t → Agrees (x i) (y i) t fun _ => I) (hs : I s) :
    Agrees (Prog.each x is) (Prog.each y is) s fun _ => I := by
  induction is generalizing s with
  | nil => exact pure hs
  | cons i is ih =>
    refine bind (hstep i (List.mem_cons_self ..) s hs) fun _ t ht => ?_
    exact ih (fun k hk => hstep k (List.mem_cons_of_mem i hk)) ht

end Agrees

end Prog
