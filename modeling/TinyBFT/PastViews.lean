import TinyBFT.CheckpointRecord
import TinyBFT.PastRequests
import TinyBFT.Status
import TinyBFT.ViewCalls

/-!
# The views of the past requests (`View_info.cc:60-117`, `:201-229`)

An entry of the log of past requests has two views. With a pre-prepare, `v` is the view in which it
prepared and `lv` the last one in which its digest was sent; without, `v` is the last view in which
the digest was sent and `lv` the last one of the digest before. So the first pair is in order, and
so is the second; and a view-change for a later view is above both.

| here | there |
| --- | --- |
| `OReqInfo.Consistent` | what `restart` checks of an entry (`View_info.cc:553-559`) |
| `Signed`, `sign`      | `re_authenticate` (`View_change.cc:127-151`) without its assertions, which `vcOk` has |
| `oldSize`             | the size without the authenticator, as in `View_change.cc:142` |
| `Signed.verify`       | `verify` and `verify_digest` (`View_change.cc:153-201`) |
| `stateDigest`         | `State::digest` (`State.cc:810-818`), which `view_change` asks for the checkpoints |
| `Allowed`             | what the callers promise (`Replica.cc`, `send_view_change` and `mark_stable`) |

`send_view_change` records the log and moves on to the next view at once. Where it did not, and the
window moved over a multiple of `2 ^ 31` in between, a number could find the views of another one.
-/

namespace TinyBFT

/-! ## Verifying a view-change -/

namespace ViewChange

/-- A view-change message on its way: `auth` tells for which replicas `verify_auth_in` accepts the
authenticator. -/
structure Signed where
  m : ViewChange
  d : Digest
  size : Int
  auth : Nat → Bool

/-- 64 bytes, the checkpoints and the bitmap; and 48 bytes for each request. -/
def oldSize (P : Params) (m : ViewChange) : Nat :=
  64 + 32 * ckptsSize P + 8 * preparedSize P + 48 * m.nReqs

def sign (cfg : Cfg) (m : ViewChange) (auth : Nat → Bool) : Signed where
  m := m
  d := cfg.vcDigest m
  size := (m.oldSize cfg.P + Status.authSize (cfg.env m.id) + 7) / 8 * 8
  auth := auth

/-- `verify` of replica `j`. -/
def Signed.verify (cfg : Cfg) (s : Signed) (j : Nat) : Bool :=
  s.m.wellFormed cfg && !decide (s.size - s.m.oldSize cfg.P < Status.authSize (cfg.env s.m.id)) &&
    s.d == cfg.vcDigest s.m && s.auth j

variable {P : Params} {buf : Buffer P} {vc vc' : ViewChange}

/-- All requests are of views before that of the message. -/
def Past (vc : ViewChange) : Prop :=
  ∀ k, k < vc.nReqs → ∀ ri, vc.reqInfo[k]? = some ri → ri.lv < vc.v ∧ ri.v < vc.v

end ViewChange

/-! ## Entries -/

namespace OReqInfo

variable {ri : OReqInfo} {d : Digest} {w : Int}

/-- What `restart` checks. -/
structure Consistent (ri : OReqInfo) : Prop where
  prepared : ∀ m, ri.m = some m → m.digest = ri.d ∧ m.view = ri.v ∧ ri.v ≤ ri.lv
  unprepared : ri.m = none → ri.lv < ri.v ∨ ri.v = -1

/-- Consistent; without a current digest there is none before it, and no view is above `w`. -/
structure UpTo (w : Int) (ri : OReqInfo) : Prop extends Consistent ri where
  blank : ri.m = none → ri.v = -1 → ri.lv = -1
  v_le : ri.v ≤ w
  lv_le : ri.lv ≤ w

/-- One of the views is `w`. -/
def Now (w : Int) (ri : OReqInfo) : Prop := ri.v = w ∨ ri.lv = w

theorem UpTo.later (h : UpTo w ri) {v : Int} (hv : w < v) : UpTo v ri ∧ ri.v < v ∧ ri.lv < v :=
  ⟨⟨h.toConsistent, h.blank, h.v_le.trans hv.le, h.lv_le.trans hv.le⟩,
    h.v_le.trans_lt hv, h.lv_le.trans_lt hv⟩

/-- `add_incomplete` in view `w`, of the digest that the entry has if it has one of this view. -/
theorem UpTo.addIncomplete (h : UpTo w ri) (hw : 0 ≤ w) (hd : ri.Now w → ri.d = d) :
    UpTo w (ri.addIncomplete w d) := by
  unfold OReqInfo.addIncomplete
  split
  · cases hm : ri.m with
    | some m =>
      -- the request prepared, and its digest is sent again
      obtain ⟨h1, h2, -⟩ := h.prepared m hm
      rw [Option.isSome_some, if_pos rfl]
      refine ⟨⟨fun m' hm' => ?_, nofun⟩, nofun, h.v_le, le_rfl⟩
      cases hm'
      exact ⟨h1, h2, h.v_le⟩
    | none =>
      have hlt : ri.lv < w := by
        rcases h.unprepared hm with hlt | hneg
        · exact hlt.trans_le h.v_le
        · rw [h.blank hm hneg]
          omega
      rw [Option.isSome_none, if_neg Bool.false_ne_true]
      exact ⟨⟨nofun, fun _ => .inl hlt⟩, fun _ (hneg : w = -1) => by omega, le_rfl, hlt.le⟩
  · rename_i hne
    -- neither view is the current one, and the later of them becomes `lv`
    have hv : ri.v < w := lt_of_le_of_ne h.v_le fun heq => hne (hd (.inl heq))
    have hlv : ri.lv < w := lt_of_le_of_ne h.lv_le fun heq => hne (hd (.inr heq))
    have hlast : (if ri.m.isSome then ri.lv else ri.v) < w := by
      split
      · exact hlv
      · exact hv
    exact ⟨⟨nofun, fun _ => .inl hlast⟩, fun _ (hneg : w = -1) => by omega, le_rfl, hlast.le⟩

end OReqInfo

/-! ## The message -/

namespace ViewInfo

variable {cfg : Cfg} {id : Nat} {s : ViewInfo} {le : Int} {digest : Int → Option Digest}
    {a : ViewChange.Add}

theorem nodup_intRange (lo hi : Int) : (intRange lo hi).Nodup :=
  List.nodup_range.map fun a b (h : lo + (a : Int) = lo + (b : Int)) => by omega

/-- `State::digest`, where `sd` has the digests in the records of the state's log: one whose first
word is zero marks a record that is not in use. -/
def stateDigest (sd : Int → Option Digest) (n : Int) : Option Digest :=
  (sd n).filter fun d => !d.isZero

/-- It is what both logs of checkpoint records answer. -/
theorem stateDigest_heap (clog : Log CheckpointRec) (size : Nat) (n : Int) :
    (clog.fetch size n).bind CheckpointRec.digest =
      stateDigest (fun n => (clog.fetch size n).map CheckpointRec.sd) n := by
  simp only [stateDigest]
  cases clog.fetch size n with
  | none => rfl
  | some r =>
    cases h : r.sd.isZero <;> simp [CheckpointRec.digest, CheckpointRec.isCleared, Option.filter, h]

theorem stateDigest_static (P : Params) (clog : CheckpointRecordLog) (n : Int) :
    (clog.fetch P n).bind CheckpointRecord.digest =
      stateDigest (fun n => (clog.fetch P n).map CheckpointRecord.sd) n := by
  simp only [stateDigest]
  cases clog.fetch P n with
  | none => rfl
  | some r =>
    cases h : r.sd.isZero <;>
      simp [CheckpointRecord.digest, CheckpointRecord.isCleared, Option.filter, h]

end ViewInfo

/-! ## Runs -/

namespace Traced

open OReqInfo (UpTo Now Consistent)

variable (cfg : Cfg) (id : Nat)

/-- A replica sends one digest for a sequence number in a view, and moves its window up. In the
middle of `send_view_change`, where entries have been recorded in the current view, the window does
not move over a multiple of `2 ^ 31`. -/
def Allowed (t : Traced) : PastOp → Prop
  | .complete _ => True
  | .incomplete n d => ∀ r ∈ t.hist, r.n = n → r.v = t.s.v → r.d = d
  | .viewChange v le _ _ _ => t.s.v < v ∧ le ≤ t.s.lastStable + cfg.P.maxOut
  | .markStable ls => t.s.lastStable ≤ ls ∧ ls % cfg.P.ckptInterval = 0 ∧
      (t.s.oplog.NoWrap cfg.P.maxOut (ls + 1) ∨ ∀ r ∈ t.hist, r.v < t.s.v)

instance Allowed.decide (t : Traced) : ∀ op, Decidable (Allowed cfg t op)
  | .complete _ => .isTrue trivial
  | .incomplete n d => inferInstanceAs (Decidable (∀ r ∈ t.hist, r.n = n → r.v = t.s.v → r.d = d))
  | .viewChange v le _ _ _ =>
    inferInstanceAs (Decidable (t.s.v < v ∧ le ≤ t.s.lastStable + cfg.P.maxOut))
  | .markStable ls =>
    inferInstanceAs (Decidable (t.s.lastStable ≤ ls ∧ ls % cfg.P.ckptInterval = 0 ∧
      ((ls + 1 - t.s.oplog.head < cfg.P.maxOut → toInt t.s.oplog.head < toInt (ls + 1)) ∨
        ∀ r ∈ t.hist, r.v < t.s.v)))

/-- Every entry is consistent and up to the current view, and one that has this view has the digest
that was recorded in it. -/
structure InOrder (t : Traced) : Prop where
  view : 0 ≤ t.s.v
  head : t.s.oplog.head = t.s.lastStable + 1
  stable : 0 ≤ t.s.lastStable ∧ t.s.lastStable % cfg.P.ckptInterval = 0
  upTo : ∀ k, UpTo t.s.v (t.s.oplog.elems k)
  now : ∀ n, t.s.oplog.withinRange cfg.P.maxOut n = true →
    Now t.s.v (t.s.oplog.entry cfg.P.maxOut n) →
    ∃ r ∈ t.hist, r.n = n ∧ r.v = t.s.v ∧ r.d = (t.s.oplog.entry cfg.P.maxOut n).d

variable {cfg} {id} {t u : Traced}

/-- A record of `n` with the digest of the entry. -/
theorem InOrder.record (hi : InOrder cfg t) {n : Int}
    (hn : t.s.oplog.withinRange cfg.P.maxOut n = true) {r : PastRec} (hrn : r.n = n)
    (hrv : r.v = t.s.v) {ri : OReqInfo} (hri : UpTo t.s.v ri) (hd : r.d = ri.d) :
    InOrder cfg ⟨{ t.s with oplog := t.s.oplog.set cfg.P.maxOut n ri }, r :: t.hist⟩ := by
  refine ⟨hi.view, hi.head, hi.stable, fun k => ?_, fun m hm hnow => ?_⟩
  · by_cases hk : k = Log.slot cfg.P.maxOut n
    · simpa [Log.set, hk] using hri
    · simpa [Log.set, hk] using hi.upTo k
  · by_cases hmn : m = n
    · subst hmn
      exact ⟨r, List.mem_cons_self, hrn, hrv, by dsimp only; rw [Log.entry_set_self]; exact hd⟩
    · have hm' : t.s.oplog.withinRange cfg.P.maxOut m = true := hm
      have heq := Log.entry_set_of_ne ri hn hm' hmn
      dsimp only at hnow ⊢
      rw [heq] at hnow ⊢
      obtain ⟨x, hx, h⟩ := hi.now m hm' hnow
      exact ⟨x, List.mem_cons_of_mem _ hx, h⟩

end Traced

end TinyBFT
