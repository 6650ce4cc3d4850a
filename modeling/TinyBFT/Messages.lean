import TinyBFT.Basic

/-!
# Messages of the normal case (`Prepare.h`, `Commit.h`, `Checkpoint.h`, `Reply.h`, `Digest.h`)

| here | there |
| --- | --- |
| `Digest`, `Digest.isZero` | `unsigned d[8]` and `is_zero()` (`Digest.h:38`), which looks at the first word only |
| `Prepare`    | `Prepare_rep`; `extra` is the field that `is_proof()` tests (`Prepare.h:99`) |
| `Commit`     | `Commit_rep`, which carries no digest |
| `Checkpoint` | `Checkpoint_rep`; `extra` is the field that `stable()` tests (`Checkpoint.h:95`) |
| `Reply`      | what `Certificate<Reply>` reads of `Reply_rep`; `full()` is `reply_size >= 0` |

A replica identifier is a `Nat`: the negative ones a message can carry are rejected by `is_replica`
like those from `num_replicas` on. Authenticators are not fields: whether `verify` accepts a message
depends on the receiver's keys, so it is an argument of the functions that call it.
-/

namespace TinyBFT

/-- A SHA-256 value: word `i` of `d[8]` is bits `32 i` to `32 i + 31`. -/
abbrev Digest := BitVec 256

/-- `is_zero()` (`Digest.h:38`). -/
def Digest.isZero (d : Digest) : Bool := d.setWidth 32 == 0

structure Prepare where
  view : Int
  seqno : Int
  digest : Digest
  id : Nat
  extra : Bool := false
deriving DecidableEq, Repr

/-- `is_proof()` (`Prepare.h:99`): sent to one replica to prove the authenticity of a request. -/
def Prepare.isProof (p : Prepare) : Bool := p.extra

structure Commit where
  view : Int
  seqno : Int
  id : Nat
deriving DecidableEq, Repr

structure Checkpoint where
  seqno : Int
  digest : Digest
  id : Nat
  extra : Bool := false
deriving DecidableEq, Repr

/-- `stable()` (`Checkpoint.h:95`). -/
def Checkpoint.stable (c : Checkpoint) : Bool := c.extra

structure Reply where
  view : Int
  digest : Digest
  replica : Nat
  replySize : Int
  extra : Bool := false
deriving DecidableEq, Repr

/-- `is_tentative()` (`Reply.h:141`). -/
def Reply.isTentative (r : Reply) : Bool := r.extra

end TinyBFT
