import Mathlib.Data.List.Basic

/-!
# Runs of a partial transition function

A component is a state type `S`, an action type `A` and a partial step function
`step : S → A → Option S`; `none` means that the component stops (an assertion fails, or the
action is not enabled). A *run* folds `step` over a list of actions. `Meets ok` says that every
step of a run is taken in a state where `ok` holds of the state and the action: it is how a
condition on the steps of a run is stated.
-/

namespace Run

variable {S A : Type*} {step : S → A → Option S} {ok : S → A → Prop}

/-- The state reached from `s` by the actions `as`, if no step stops. -/
def run (step : S → A → Option S) : S → List A → Option S
  | s, [] => some s
  | s, a :: as => (step s a).bind fun s' => run step s' as

/-- Every step of the run of `as` from `s` is taken where `ok` holds. -/
def Meets (step : S → A → Option S) (ok : S → A → Prop) : S → List A → Prop
  | _, [] => True
  | s, a :: as => ok s a ∧ ∀ s', step s a = some s' → Meets step ok s' as

instance Meets.decide [∀ s a, Decidable (ok s a)] :
    ∀ (s : S) (as : List A), Decidable (Meets step ok s as)
  | _, [] => .isTrue trivial
  | s, a :: as =>
    match hs : step s a with
    | none => decidable_of_iff (ok s a) ⟨fun h => ⟨h, by simp [hs]⟩, And.left⟩
    | some t =>
      have := Meets.decide t as
      decidable_of_iff (ok s a ∧ Meets step ok t as)
        ⟨fun h => ⟨h.1, by rintro s' hs'; rw [hs] at hs'; cases hs'; exact h.2⟩,
          fun h => ⟨h.1, h.2 t hs⟩⟩

@[simp] theorem run_nil (s : S) : run step s [] = some s := rfl

theorem run_cons {s s' : S} {a : A} {as : List A} :
    run step s (a :: as) = some s' ↔ ∃ t, step s a = some t ∧ run step t as = some s' := by
  simp [run, Option.bind_eq_some_iff]

theorem run_append {s s' : S} {as bs : List A} :
    run step s (as ++ bs) = some s' ↔ ∃ t, run step s as = some t ∧ run step t bs = some s' := by
  induction as generalizing s with
  | nil => simp
  | cons a as ih =>
    simp only [List.cons_append, run_cons, ih]
    constructor
    · rintro ⟨t, ht, u, hu, hr⟩; exact ⟨u, ⟨t, ht, hu⟩, hr⟩
    · rintro ⟨u, ⟨t, ht, hu⟩, hr⟩; exact ⟨t, ht, u, hu, hr⟩

theorem meets_append {s t : S} {as bs : List A} (hm : Meets step ok s (as ++ bs))
    (hr : run step s as = some t) : Meets step ok s as ∧ Meets step ok t bs := by
  induction as generalizing s with
  | nil => simp at hr; subst hr; exact ⟨trivial, hm⟩
  | cons a as ih =>
    obtain ⟨u, hu, hr⟩ := run_cons.1 hr
    obtain ⟨ha, hrest⟩ := hm
    obtain ⟨h1, h2⟩ := ih (hrest u hu) hr
    refine ⟨⟨ha, fun s' hs' => ?_⟩, h2⟩
    rw [hu] at hs'; cases hs'; exact h1

theorem meets_prefix {s : S} {as bs : List A} (hm : Meets step ok s (as ++ bs)) :
    Meets step ok s as := by
  induction as generalizing s with
  | nil => trivial
  | cons a as ih => exact ⟨hm.1, fun s' hs' => ih (hm.2 s' hs')⟩

theorem meets_of_forall (step : S → A → Option S) (h : ∀ s a, ok s a) (s : S) (as : List A) :
    Meets step ok s as := by
  induction as generalizing s with
  | nil => trivial
  | cons a as ih => exact ⟨h s a, fun t _ => ih t⟩

/-- What `Meets` says of each step. -/
theorem meets_iff {s : S} {as : List A} :
    Meets step ok s as ↔ ∀ pre a post, as = pre ++ a :: post → ∀ t,
      run step s pre = some t → ok t a := by
  induction as generalizing s with
  | nil => simp [Meets]
  | cons a as ih =>
    constructor
    · rintro ⟨ha, hrest⟩ pre b post hsplit t ht
      rcases List.cons_eq_append_iff.1 hsplit with ⟨rfl, hb⟩ | ⟨pre, rfl, rfl⟩
      · obtain ⟨rfl, rfl⟩ := List.cons.inj hb
        obtain rfl := Option.some.inj ht
        exact ha
      · obtain ⟨u, hu, ht⟩ := run_cons.1 ht
        exact ih.1 (hrest u hu) pre b post rfl t ht
    · intro h
      refine ⟨h [] a as rfl s rfl, fun u hu => ih.2 fun pre b post hsplit t ht => ?_⟩
      exact h (a :: pre) b post (by rw [hsplit, List.cons_append]) t (run_cons.2 ⟨u, hu, ht⟩)

/-- **Invariant rule.** What one step keeps, provided it is taken where `ok` holds, a whole run
keeps, provided all its steps are. -/
theorem invariant {I : S → Prop}
    (hstep : ∀ s a s', I s → ok s a → step s a = some s' → I s') :
    ∀ {s s' : S} {as : List A}, I s → Meets step ok s as → run step s as = some s' → I s'
  | s, s', [], hi, _, hr => by simp at hr; exact hr ▸ hi
  | s, s', a :: as, hi, hm, hr => by
    obtain ⟨t, ht, hr⟩ := run_cons.1 hr
    exact invariant hstep (hstep s a t hi hm.1 ht) (hm.2 t ht) hr

/-- Two conditions on the steps of a run that an invariant makes the same. -/
theorem meets_congr {ok' valid : S → A → Prop} {I : S → Prop}
    (hstep : ∀ s a s', I s → valid s a → step s a = some s' → I s')
    (hok : ∀ s a, I s → valid s a → (ok s a ↔ ok' s a)) :
    ∀ {s : S} {as : List A}, I s → Meets step valid s as →
      (Meets step ok s as ↔ Meets step ok' s as)
  | _, [], _, _ => Iff.rfl
  | s, a :: _, hi, hv =>
    and_congr (hok s a hi hv.1) <| forall_congr' fun t => forall_congr' fun ht =>
      meets_congr hstep hok (hstep s a t hi hv.1 ht) (hv.2 t ht)

/-- `P` holds of every state that the run of `as` from `s` reaches. -/
def Throughout (step : S → A → Option S) (P : S → Prop) (s : S) (as : List A) : Prop :=
  P s ∧ Meets step (fun s a => ∀ s', step s a = some s' → P s') s as

/-- The exact condition for what a run keeps: where a step keeps `P` if and only if `ok` holds of
it, so does a whole run. -/
theorem throughout_iff {valid : S → A → Prop} {J P : S → Prop}
    (hJ : ∀ s a s', J s → valid s a → step s a = some s' → J s')
    (hok : ∀ s a, J s → P s → valid s a → ((∀ s', step s a = some s' → P s') ↔ ok s a)) :
    ∀ {s : S} {as : List A}, J s → P s → Meets step valid s as →
      (Throughout step P s as ↔ Meets step ok s as)
  | _, [], _, hp, _ => ⟨fun _ => trivial, fun _ => ⟨hp, trivial⟩⟩
  | s, a :: _, hj, hp, hv => by
    constructor
    · rintro ⟨-, hP, hrest⟩
      refine ⟨(hok s a hj hp hv.1).1 hP, fun t ht => ?_⟩
      exact (throughout_iff hJ hok (hJ s a t hj hv.1 ht) (hP t ht) (hv.2 t ht)).1
        ⟨hP t ht, hrest t ht⟩
    · rintro ⟨ha, hrest⟩
      have hP := (hok s a hj hp hv.1).2 ha
      refine ⟨hp, hP, fun t ht => ?_⟩
      exact ((throughout_iff hJ hok (hJ s a t hj hv.1 ht) (hP t ht) (hv.2 t ht)).2 (hrest t ht)).2

/-- The invariant rule for runs without a condition on their steps. -/
theorem invariant_of_step {Inv : S → Prop} (hstep : ∀ s a s', Inv s → step s a = some s' → Inv s')
    {s s' : S} {as : List A} (hi : Inv s) (hr : run step s as = some s') : Inv s' := by
  induction as generalizing s with
  | nil => simp at hr; exact hr ▸ hi
  | cons a as ih =>
    obtain ⟨t, ht, hr⟩ := run_cons.1 hr
    exact ih (hstep s a t hi ht) hr

section Rel

variable {T U V : Type*} {R : S → T → Prop} {Q : U → V → Prop} {a : Option S} {b : Option T}

/-- Two calls that agree, and then two calls that agree on what the first ones gave. -/
theorem rel_bind {f : S → Option U} {g : T → Option V} (h : Option.Rel R a b)
    (hfg : ∀ s t, a = some s → R s t → Option.Rel Q (f s) (g t)) :
    Option.Rel Q (a.bind f) (b.bind g) := by
  cases h with
  | none => exact .none
  | some h => exact hfg _ _ rfl h

theorem rel_mono {R' : S → T → Prop} (h : Option.Rel R a b) (hR : ∀ s t, R s t → R' s t) :
    Option.Rel R' a b := by
  cases h with
  | none => exact .none
  | some h => exact .some (hR _ _ h)

/-- **Simulation rule.** Two components whose steps agree, provided they are taken where `ok` holds,
agree over a whole run. -/
theorem agree {step' : T → A → Option T}
    (hstep : ∀ s t a, R s t → ok s a → Option.Rel R (step s a) (step' t a)) :
    ∀ {s : S} {t : T} {as : List A}, R s t → Meets step ok s as →
      Option.Rel R (run step s as) (run step' t as)
  | _, _, [], h, _ => .some h
  | s, t, a :: _, h, hm =>
    rel_bind (hstep s t a h hm.1) fun s' _ hs h' => agree hstep h' (hm.2 s' hs)

end Rel

end Run
