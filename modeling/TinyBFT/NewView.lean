import TinyBFT.Node

/-!
# `New_view` and `View_change_ack` messages (`New_view.h`, `New_view.cc`, `View_change_ack.h`)

| here | there |
| --- | --- |
| `NewView`        | `New_view_rep`, `vc_info[]` and `picked[]` (`New_view.h:20-46`); a pick is a `char` |
| `NewView.new`    | the constructor (`New_view.cc:13-26`) |
| `addViewChange`, `setMin`, `setMax`, `pick` | `New_view.cc:42-70` |
| `reAuthenticate` | the size check of `re_authenticate` (`New_view.cc:72-83`), in `size_t` |
| `viewChange`     | `view_change` (`New_view.cc:85-94`, `New_view.h:174-178`), `none` for `false` |
| `whichPicked`    | `which_picked` (`New_view.h:169-172`), `none` its `th_assert` |
| `wellFormed`     | `verify` without the authenticator (`New_view.cc:96-108`) |
| `ViewChangeAck`  | `View_change_ack_rep` |
| `ViewChangeAck.wellFormed` | `verify` without the MAC (`View_change_ack.cc:43-52`) |
| `ViewChange.wellFormed`    | `verify` without the digest and the authenticator (`View_change.cc:153-181`) |
-/

namespace TinyBFT

structure NewView where
  v : Int
  min : Int
  max : Int
  vcInfo : Nat → Digest
  picked : Nat → Int

structure ViewChangeAck where
  v : Int
  id : Nat
  vcid : Nat
  vcd : Digest
deriving DecidableEq, Repr

/-- From another replica than the sender of the view-change and the primary. -/
def ViewChangeAck.wellFormed (cfg : Cfg) (m : ViewChangeAck) : Bool :=
  decide (m.id < cfg.n ∧ m.id ≠ m.vcid ∧ cfg.primary m.v ≠ m.id ∧ 0 < m.v ∧ m.vcid < cfg.n)

def ViewChange.wellFormed (cfg : Cfg) (m : ViewChange) : Bool :=
  decide (m.id < cfg.n ∧ m.nReqs ≤ cfg.P.maxOut ∧ 0 < m.v ∧
    m.nCkpts ≤ cfg.P.maxOut / cfg.P.ckptInterval + 1 ∧
      (0 < m.nCkpts → (m.ckpts.getD (m.nCkpts - 1) 0).isZero = false) ∧
        0 ≤ m.ls ∧ m.ls % cfg.P.ckptInterval = 0) &&
    (List.range m.nReqs).all fun i =>
      decide ((m.reqInfo.getD i default).lv < m.v ∧ (m.reqInfo.getD i default).v < m.v)

namespace NewView

variable (cfg : Cfg)

def new (v : Int) : NewView := ⟨v, -1, -1, fun _ => 0, fun _ => 0⟩

/-- `id()`: the primary of the view. -/
def id (m : NewView) : Nat := cfg.primary m.v

/-- A value stored in a `char`. -/
def toChar (x : Int) : Int := Int.bmod x (2 ^ 8)

def addViewChange (m : NewView) (id : Nat) (d : Digest) : Option NewView :=
  if id < cfg.n ∧ m.vcInfo id = 0 then
    some { m with vcInfo := Function.update m.vcInfo id d } else none

def setMin (m : NewView) (min : Int) : Option NewView :=
  if m.min = -1 then some { m with min } else none

def setMax (m : NewView) (max : Int) : Option NewView :=
  if 0 ≤ m.min ∧ m.min ≤ max ∧ max - m.min ≤ cfg.P.maxOut + 1 then some { m with max } else none

def pick (m : NewView) (id : Nat) (n : Int) : Option NewView :=
  if 0 ≤ m.min ∧ id < cfg.n ∧ m.vcInfo id ≠ 0 ∧ m.min ≤ n ∧ n ≤ m.min + cfg.P.maxOut then
    some { m with picked := Function.update m.picked (n - m.min).toNat (toChar id) }
  else none

/-- `old_size` for `n` replicas and `d` picks. -/
def oldSize (n : Nat) (d : Int) : Int := 32 + 32 * n + d

/-- The size check, with the difference of the sizes taken without a sign. -/
def sizeCheck (P : Params) (n : Nat) (d : Int) : Bool :=
  decide ((n - 1) * 32 ≤ unsigned64 (P.maxNewViewSize - oldSize n d))

def reAuthenticate (m : NewView) : Bool := sizeCheck cfg.P cfg.n (m.max - m.min)

def viewChange (m : NewView) (id : Nat) : Option Digest :=
  if id < cfg.n ∧ (m.vcInfo id).isZero = false then some (m.vcInfo id) else none

def whichPicked (m : NewView) (n : Int) : Option Int :=
  if m.min ≤ n ∧ n < m.max then some (m.picked (n - m.min).toNat) else none

/-- Every pick is a replica with a view-change digest. -/
def picksOk (m : NewView) : Bool :=
  (List.range (m.max - m.min).toNat).all fun i =>
    decide (0 ≤ m.picked i ∧ m.picked i < cfg.n) && !(m.vcInfo (m.picked i).toNat).isZero

def wellFormed (m : NewView) : Bool :=
  decide (0 < m.v ∧ 0 ≤ m.min ∧ 0 ≤ m.max ∧ m.min ≤ m.max ∧
    m.max - m.min ≤ cfg.P.maxOut + 1) && m.picksOk cfg

end NewView

end TinyBFT
