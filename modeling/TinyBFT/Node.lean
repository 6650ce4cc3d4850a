import TinyBFT.PreparedCert
import TinyBFT.ViewChange

/-!
# The node and what the protocol code leaves to others (`Node.h`, `Node.cc`, `libbyz.h`)

| here | there |
| --- | --- |
| `Cfg.f`, `Cfg.env`    | `max_faulty`, `num_replicas = 3 * max_faulty + 1` (`Node.cc:83-85`) |
| `Cfg.maxOut_pow`      | the size of a `Log` is a power of two (`Log.h:25`) |
| `Cfg.vcDigest`        | the digest of a view-change message (`View_change.cc:150`), SHA-256 of its bytes |
| `Cfg.batchDigest`     | the digest of a batch (`Pre_prepare.cc:80-82`) |
| `Cfg.fill`            | how `Pre_prepare::fill` splits the request queue; `choices` is what `compute_non_det` returned |
| `Cfg.exec`            | the writes of `exec_command` and of the reply area, for a batch (`Replica.cc:1299-1366`) |
| `Cfg.recoveries`      | its recovery requests, `true` for those of other replicas (`Replica.cc:1319-1339`) |
| `Cfg.dequeue`, `Cfg.prune` | the requests that `rqueue.remove` and `replies.new_state` take out of the queue |
| `Cfg.recPoint`        | the largest recovery sequence number in the reply area (`update_max_rec`, `Replica.cc:1468-1484`) |
| `Cfg.treeDigest`      | the root digest of the partition tree over the blocks and their stamps (`State.cc:665-735`) |

The replicated memory is a function from block numbers. A batch changes it by declared writes. A
recovery request in it makes the replica change its keys, if it comes from another one; this reads
nothing of the memory, so the recoveries of a batch follow its writes here.
-/

namespace TinyBFT

abbrev Block := List UInt8

/-- The replicated memory. -/
abbrev Mem := Nat → Block

/-- The configuration that all replicas share. -/
structure Cfg where
  P : Params
  f : Nat
  staticLog : Bool
  n_le : 3 * f + 1 ≤ P.maxNumReplicas
  maxOut_pow : ∃ k, P.maxOut = 2 ^ k
  vcDigest : ViewChange → Digest
  batchDigest : List UInt8 → Digest
  fill : List (List UInt8) → List UInt8 → List UInt8 × List (List UInt8)
  exec : List UInt8 → Mem → List (Nat × Block)
  recoveries : List UInt8 → Mem → List Bool
  dequeue : List UInt8 → List (List UInt8) → List (List UInt8)
  prune : Mem → List (List UInt8) → List (List UInt8)
  recPoint : Mem → Int
  treeDigest : Mem → (Nat → Int) → Digest

/-- The node of replica `id`. -/
def Cfg.env (cfg : Cfg) (id : Nat) : Env := ⟨3 * cfg.f + 1, cfg.f, id, cfg.staticLog⟩

def Cfg.n (cfg : Cfg) : Nat := 3 * cfg.f + 1

/-- `n_f()`: the replicas that are correct at least. -/
def Cfg.nf (cfg : Cfg) : Nat := 2 * cfg.f + 1

def Cfg.primary (cfg : Cfg) (v : Int) : Nat := (v % cfg.n).toNat

theorem Cfg.primary_lt (cfg : Cfg) (v : Int) : cfg.primary v < cfg.n := by
  have hn : 0 < cfg.n := by unfold Cfg.n; omega
  have h1 := Int.emod_nonneg v (b := cfg.n) (by omega)
  have h2 := Int.emod_lt_of_pos v (b := cfg.n) (by omega)
  unfold Cfg.primary
  omega

theorem Cfg.maxOut_dvd (cfg : Cfg) : cfg.P.maxOut ∣ 2 ^ 32 := by
  obtain ⟨k, hk⟩ := cfg.maxOut_pow
  have hlt := cfg.P.maxOut_lt
  rw [hk] at hlt ⊢
  exact Nat.pow_dvd_pow 2 ((Nat.pow_lt_pow_iff_right (by omega)).1 hlt |>.le.trans (by omega))

namespace Replica

/-- Four replicas, and a window of four sequence numbers. -/
def fourReplicas : Cfg where
  P := ⟨4, 2, 4, 16384, by decide, by decide, by decide, Params.default.maxMessageSize_le⟩
  f := 1
  staticLog := false
  n_le := by decide
  maxOut_pow := ⟨2, rfl⟩
  vcDigest vc := BitVec.ofNat 256 (vc.id + 1)
  batchDigest b := BitVec.ofNat 256 (b.length + 1)
  fill q _ := (q.headD [], q.tail)
  exec _ _ := []
  recoveries _ _ := []
  dequeue _ q := q
  prune _ q := q
  recPoint _ := 0
  treeDigest _ _ := 7

end Replica

end TinyBFT
