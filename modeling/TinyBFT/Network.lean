import TinyBFT.HonestRuns
import TinyBFT.Numbering
import TinyBFT.Lib.Quorum
import Mathlib.Data.Finset.Range

/-!
# The replicas and the network

The correct replicas of a deployment, each with its state. A step is an event at one of them: a
message that arrives, or a timer. The network may lose, delay, repeat and reorder messages, and the
other replicas may send whatever they like, also what they have got from others; but what verifies
as the message of a correct replica was made by it (`Authentic`), and a status message of a correct
replica names a view in which it has been. A message has a MAC for every replica, wherever it was
sent; only a prepare that proves a request to one replica is for that one alone (`Prepare.cc`). The
commits of some of the correct replicas are not forged either (`Signed`); what is about prepares
only holds without that.

| here | there |
| --- | --- |
| `Network`   | the replicas, and the view-change messages that were delivered to one of them |
| `step`      | one round of `Replica::recv` (`Replica.cc:325-447`) at one replica |
| `Authentic` | `verify`: the authenticator of a correct sender is not forged (`Node.cc:334-372`) |
| `Unforged`  | `verify` of a commit (`Commit.cc:28-36`) |
| `Admits`    | a step at a correct replica in which nothing that it voted for is forgotten |
| `Sound`     | what holds of every correct replica between two steps |
-/

namespace TinyBFT

/-- The states of the replicas, and the view-changes that were delivered. -/
structure Network where
  replicas : Nat → Replica
  changes : List ViewChange

namespace Network

open Replica (HRun RunInv Grows Issued)

variable (cfg : Cfg) (correct : Finset Nat)

/-- A replica, and the event that occurs there. -/
abbrev Action := Nat × Oracle × Replica.Event

def new (mem : Nat → Mem) : Network := ⟨fun i => Replica.new cfg i (mem i), []⟩

/-- The view-change that an event brings. -/
def delivered : Replica.Event → List ViewChange
  | .viewChange m _ _ => [m]
  | _ => []

def step (w : Network) (a : Action) : Network where
  replicas := Function.update w.replicas a.1 (Replica.step cfg a.1 (w.replicas a.1) a.2)
  changes := delivered a.2.2 ++ w.changes

def run (w : Network) (as : List Action) : Network := as.foldl (step cfg) w

/-- Replica `k` has sent `m` to some replica, or to all. -/
def Sent (w : Network) (k : Nat) (m : Msg) : Prop := ∃ dest, (dest, m) ∈ (w.replicas k).sent

/-- Replica `k` has sent `m` to replica `i`, or to all. -/
def SentTo (w : Network) (k i : Nat) (m : Msg) : Prop :=
  (none, m) ∈ (w.replicas k).sent ∨ (some i, m) ∈ (w.replicas k).sent

/-- What verifies at replica `i` as the message of another correct replica is one. A pre-prepare has
the authenticator with which it was created, whoever sends it on. -/
def Authentic (w : Network) (i : Nat) : Replica.Event → Prop
  | .prePrepare m nrc _ _ => nrc = true → cfg.primary m.view ∈ correct → cfg.primary m.view ≠ i →
    Issued (w.replicas (cfg.primary m.view)) m ∨ w.SentTo (cfg.primary m.view) i (.prePrepare m)
  | .prepare m verify => verify = true → m.id ∈ correct → m.id ≠ i →
    if m.extra then w.SentTo m.id i (.prepare m) else w.Sent m.id (.prepare m)
  | .newView m verified =>
    verified = true → m.id cfg ∈ correct → m.id cfg ≠ i → w.Sent (m.id cfg) (.newView m)
  | .status m verify => verify = true → m.id ∈ correct → m.id ≠ i → m.view ≤ (w.replicas m.id).v
  | _ => True

/-- A step that may be taken. -/
structure Admits (w : Network) (a : Action) : Prop where
  place : a.1 ∈ correct
  authentic : Authentic cfg correct w a.1 a.2.2
  remembers : (w.replicas a.1).halted = false → (w.replicas a.1).remembers cfg a.1 a.2.2 = true

/-- All steps of a run are. -/
def Admitted : Network → List Action → Prop :=
  Run.Meets (fun w a => some (step cfg w a)) (Admits cfg correct)

/-- A commit that verifies as the one of a signer is one. -/
def Unforged (signers : Finset Nat) (w : Network) (i : Nat) : Replica.Event → Prop
  | .commit m verify => verify = true → m.id ∈ signers → m.id ≠ i → w.Sent m.id (.commit m)
  | _ => True

/-- In no step of a run a commit of a signer is forged. -/
def Signed (signers : Finset Nat) : Network → List Action → Prop :=
  Run.Meets (fun w a => some (step cfg w a)) fun w a => Unforged signers w a.1 a.2.2

/-- At most `f` of the replicas are not correct. -/
structure Deployed : Prop where
  small : cfg.n ≤ 256
  subset : correct ⊆ Finset.range cfg.n
  faults : cfg.n ≤ correct.card + cfg.f

/-- A view-change that was delivered, or that a correct replica sent. -/
def Occurs (w : Network) (vc : ViewChange) : Prop :=
  vc ∈ w.changes ∨ ∃ k ∈ correct, (none, .viewChange vc) ∈ (w.replicas k).sent

variable (signers : Finset Nat)

/-- What the messages of the network can have told a replica. -/
def heard (w : Network) : Heard where
  prepare p := p.id ∈ correct → p ∈ (w.replicas p.id).votes
  commit c := c.id ∈ correct → c.id ∈ signers → (w.replicas c.id).Unwrapped →
    (none, .commit c) ∈ (w.replicas c.id).sent
  prePrepare m := cfg.primary m.view ∈ correct → Issued (w.replicas (cfg.primary m.view)) m
  newView nv :=
    cfg.primary nv.v ∈ correct → (none, .newView nv) ∈ (w.replicas (cfg.primary nv.v)).sent
  viewChange vc := vc ∈ w.changes
  reached k v := k ∈ correct → v ≤ (w.replicas k).v
  earlier _ _ _ hv h hk := hv.trans (h hk)

/-- What holds between two steps. -/
structure Sound (w : Network) : Prop where
  runs : ∀ i ∈ correct, HRun cfg i (heard cfg correct signers w) (w.replicas i)
  numbered : ∀ i ∈ correct, RunInv cfg i (w.replicas i)

variable {cfg correct signers} {w : Network} {a : Action} {i k : Nat}

theorem sound_new (mem : Nat → Mem) : Sound cfg correct signers (new cfg mem) :=
  ⟨fun i _ => Replica.hrun_new (mem i), fun i _ =>
    ⟨(Replica.inv_new (mem i)).numbered, fun _ => ⟨0, Replica.inv_new (mem i)⟩⟩⟩

/-! ## One step -/

/-- What has happened anywhere is still known. -/
structure Extends (w w' : Network) : Prop where
  grows : ∀ k, Grows (w.replicas k) (w'.replicas k)
  changes : ∀ vc ∈ w.changes, vc ∈ w'.changes

theorem Extends.refl : Extends w w := ⟨fun _ => .refl, fun _ h => h⟩

theorem Extends.trans {w' w'' : Network} (h : Extends w w') (h' : Extends w' w'') : Extends w w'' :=
  ⟨fun k => (h.grows k).trans (h'.grows k), fun vc hvc => h'.changes vc (h.changes vc hvc)⟩

theorem Extends.heard {w' : Network} (h : Extends w w') :
    (heard cfg correct signers w).Le (heard cfg correct signers w') where
  prepare p hp hk := (h.grows p.id).votes p (hp hk)
  commit c hc hk hsigner hu := (h.grows c.id).sent _ (hc hk hsigner ((h.grows c.id).unwrapped hu))
  prePrepare _ hm hk := (hm hk).mono (h.grows _)
  newView _ hnv hk := (h.grows _).sent _ (hnv hk)
  viewChange := h.changes
  reached k _ hv hk := (hv hk).trans (h.grows k).v

theorem step_self (w : Network) (a : Action) :
    (step cfg w a).replicas a.1 = Replica.step cfg a.1 (w.replicas a.1) a.2 :=
  Function.update_self ..

theorem step_other (w : Network) (a : Action) (hk : k ≠ a.1) :
    (step cfg w a).replicas k = w.replicas k := Function.update_of_ne hk ..

/-- A replica hears of what correct replicas have done. -/
theorem Sound.hears (hs : Sound cfg correct signers w) (hi : i ∈ correct) {e : Replica.Event}
    (he : Authentic cfg correct w i e) (hc : Unforged signers w i e)
    (hd : ∀ vc ∈ delivered e, vc ∈ w.changes) :
    (w.replicas i).Hears cfg i (heard cfg correct signers w) e := by
  cases e with
  | prePrepare m nrc reqsOk digestOk =>
    intro hnrc hne hv hk
    have hrec := (hs.runs _ hk).record
    rcases he hnrc hk hne with hm | hm | hm
    · exact hm
    · exact (hrec.issued none m hm rfl).resolve_right fun ⟨k, h, _⟩ => by cases h
    · -- no pre-prepare of the view was sent to a replica that has left it
      refine (hrec.issued (some i) m hm rfl).resolve_right fun ⟨k, h, hr⟩ => ?_
      cases h
      have := hr hi
      omega
  | prepare m verify =>
    intro hver hne hv hk
    have hproofs := (hs.runs _ hk).record.proofs
    have hm := he hver hk hne
    split at hm
    · rcases hm with hm | hm
      · exact Replica.mem_votes.2 hm
      · refine (hproofs i m hm).resolve_right fun ⟨_, hr⟩ => ?_
        have := hr hi
        omega
    · rename_i hextra
      obtain ⟨dest | j, hm⟩ := hm
      · exact Replica.mem_votes.2 hm
      · exact (hproofs j m hm).resolve_right fun ⟨hproof, _⟩ => hextra hproof
  | commit m verify =>
    intro hver hne hv hk hsigner hu
    have hresent := ((hs.runs _ hk).pledges hu).resent
    obtain ⟨dest | j, hm⟩ := hc hver hsigner hne
    · exact hm
    · exact hresent j m hm
  | status m verify => exact fun hver hne hk => he hver hk hne
  | viewChange m verified digestOk => exact hd m List.mem_cons_self
  | newView m verified =>
    intro hver hne hk
    obtain ⟨dest, hm⟩ := he hver hk hne
    exact (hs.runs _ hk).record.news dest m hm
  | _ => trivial

variable (hd : Deployed cfg correct)

include hd

theorem Deployed.lt (hi : i ∈ correct) : i < cfg.n := Finset.mem_range.1 (hd.subset hi)

/-- **One step** keeps what holds of the correct replicas. -/
theorem step_sound (hs : Sound cfg correct signers w) (ha : Admits cfg correct w a)
    (hc : Unforged signers w a.1 a.2.2) :
    Sound cfg correct signers (step cfg w a) ∧ Extends w (step cfg w a) := by
  -- the view-change is delivered first
  set w1 : Network := { w with changes := delivered a.2.2 ++ w.changes } with hw1
  have h1 : Extends w w1 := ⟨fun _ => .refl, fun _ hvc => List.mem_append_right _ hvc⟩
  have hs1 : Sound cfg correct signers w1 :=
    ⟨fun i hi => (hs.runs i hi).heard h1.heard, hs.numbered⟩
  have hhears := hs1.hears ha.place (e := a.2.2)
    (by cases hev : a.2.2 <;> have := ha.authentic <;> rw [hev] at this <;> exact this)
    (by cases hev : a.2.2 <;> rw [hev] at hc <;> exact hc) fun _ hvc => List.mem_append_left _ hvc
  obtain ⟨hrun, hgrows⟩ :=
    Replica.step_hrun (hd.lt ha.place) hd.small (hs1.runs a.1 ha.place) a.2 ha.remembers
    fun _ => hhears
  have hext : Extends w1 (step cfg w a) := by
    refine ⟨fun k => ?_, fun _ h => h⟩
    by_cases hk : k = a.1
    · subst hk
      rw [step_self]
      exact hgrows
    · rw [step_other w a hk]
      exact .refl
  refine ⟨⟨fun i hi => ?_, fun i hi => ?_⟩, h1.trans hext⟩
  · by_cases hia : i = a.1
    · subst hia
      rw [step_self]
      exact hrun.heard hext.heard
    · rw [step_other w a hia]
      exact (hs1.runs i hi).heard hext.heard
  · by_cases hia : i = a.1
    · subst hia
      rw [step_self]
      exact Replica.step_inv (hd.lt hi) (hs.numbered _ hi) a.2
    · rw [step_other w a hia]
      exact hs.numbered i hi

/-- **A run** does, and loses nothing that has happened. -/
theorem run_sound (as : List Action) (hs : Sound cfg correct signers w)
    (has : Admitted cfg correct w as) (hc : Signed cfg signers w as) :
    Sound cfg correct signers (run cfg w as) ∧ Extends w (run cfg w as) := by
  induction as generalizing w with
  | nil => exact ⟨hs, .refl⟩
  | cons a as ih =>
    obtain ⟨hs1, h1⟩ := step_sound hd hs has.1 hc.1
    obtain ⟨hs2, h2⟩ := ih hs1 (has.2 _ rfl) (hc.2 _ rfl)
    exact ⟨hs2, h1.trans h2⟩

omit hd in
/-- Without signers nothing is asked of the commits. -/
theorem signed_empty (w : Network) (as : List Action) : Signed cfg ∅ w as := by
  induction as generalizing w with
  | nil => trivial
  | cons a as ih =>
    refine ⟨?_, fun t _ => ih t⟩
    change Unforged ∅ w a.1 a.2.2
    generalize a.2.2 = e
    cases e with
    | commit m verify => exact fun _ hsigner => absurd hsigner (Finset.notMem_empty _)
    | _ => trivial

/-! ## Runs that can be computed -/

/-- The pre-prepares that the replica has sent to all. -/
def prePrepares (s : Replica) : List PrePrepareMsg := s.sent.filterMap fun
  | (none, .prePrepare m) => some m
  | _ => none

omit hd in
theorem mem_prePrepares {s : Replica} {m : PrePrepareMsg} (h : m ∈ prePrepares s) :
    (none, .prePrepare m) ∈ s.sent := by
  obtain ⟨⟨dest, x⟩, hx, he⟩ := List.mem_filterMap.1 h
  cases dest with
  | some k => cases he
  | none =>
    cases x with
    | prePrepare m' =>
      cases he
      exact hx
    | _ => cases he

/-- The replica has sent no view-change. -/
def quiet (s : Replica) : Bool := s.sent.all fun
  | (_, .viewChange _) => false
  | _ => true

omit hd in
theorem noCollision_of_quiet (hc : w.changes = [])
    (hq : ∀ k ∈ correct, quiet (w.replicas k) = true) : NoCollision cfg (Occurs correct w) := by
  rintro a b (ha | ⟨k, hk, ha⟩)
  · rw [hc] at ha
    cases ha
  · have := List.all_eq_true.1 (hq k hk) _ ha
    cases this

/-- Messages that were sent to all, and no new-view messages of correct replicas. -/
def admits (cfg : Cfg) (correct : Finset Nat) (w : Network) (a : Action) : Bool :=
  decide (a.1 ∈ correct) && ((w.replicas a.1).halted || (w.replicas a.1).remembers cfg a.1 a.2.2) &&
    match a.2.2 with
    | .prePrepare m _ _ _ =>
      decide (cfg.primary m.view ∉ correct ∨ m ∈ prePrepares (w.replicas (cfg.primary m.view)))
    | .prepare m _ => decide (m.id ∉ correct ∨ m ∈ (w.replicas m.id).votes)
    | .newView m _ => decide (m.id cfg ∉ correct)
    | .status m _ => decide (m.id ∉ correct ∨ m.view ≤ (w.replicas m.id).v)
    | _ => true

omit hd in
theorem admits_iff (h : admits cfg correct w a = true) : Admits cfg correct w a := by
  simp only [admits, Bool.and_eq_true, decide_eq_true_eq, Bool.or_eq_true] at h
  obtain ⟨⟨hplace, hrem⟩, he⟩ := h
  refine ⟨hplace, ?_, fun hh => hrem.resolve_left fun ht => by rw [hh] at ht; cases ht⟩
  generalize a.2.2 = e at he
  cases e with
  | prePrepare m nrc reqsOk digestOk =>
    exact fun _ hk _ =>
      .inr (.inl (mem_prePrepares ((of_decide_eq_true he).resolve_left fun h => h hk)))
  | prepare m verify =>
    intro _ hk _
    have hm := Replica.mem_votes.1 ((of_decide_eq_true he).resolve_left fun h => h hk)
    split
    · exact .inl hm
    · exact ⟨none, hm⟩
  | newView m verified => exact fun _ hk _ => absurd hk (of_decide_eq_true he)
  | status m verify => exact fun _ hk _ => (of_decide_eq_true he).resolve_left fun h => h hk
  | _ => trivial

omit hd in
theorem admitted_of_admits {as : List Action} (h :
      Run.Meets (fun w a => some (step cfg w a)) (fun w a => admits cfg correct w a = true) w as) :
    Admitted cfg correct w as := by
  induction as generalizing w with
  | nil => trivial
  | cons a as ih => exact ⟨admits_iff h.1, fun t ht => ih (h.2 t ht)⟩

end Network

end TinyBFT
