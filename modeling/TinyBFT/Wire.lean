import TinyBFT.Basic
import TinyBFT.Lib.Reads

/-!
# Messages as bytes (`Message.h`, `Message.cc`)

| here | there |
| --- | --- |
| `Wire.tag`, `Wire.size` | the header `Message_rep` (`Message.h:39-46`), 8 bytes: `tag`, `extra` and `size` |
| `Wire.hasTag`     | `has_tag` (`Message.h:199-205`) |
| `Wire.Received`   | a message from `recv` that `convert` of its class takes (`Node.cc:266-299`) |
| `short`, `int`, `seqno` | a field of 2, 4 or 8 bytes at an offset |

A message lies at address 0 of a memory. Behind its `size()` bytes is what else the buffer has: the
rest of a datagram that was longer, or of an earlier message.
-/

namespace TinyBFT

namespace Wire

variable (mem : Memory) (a : Int)

def short : Int := Bytes.toInt (mem.slice a 2)

def int : Int := Bytes.toInt (mem.slice a 4)

def seqno : Int := Bytes.toInt (mem.slice a 8)

def tag : Int := short mem 0

def size : Int := int mem 4

/-- `maxSize` is `max_size`; it is negative for a message inside another one. -/
def hasTag (maxSize t sz : Int) : Bool :=
  !(0 ≤ maxSize && maxSize < size mem) && tag mem == t && sz ≤ size mem && size mem % 8 == 0

/-- The buffer of `recv` has room for the longest message. -/
def Received (P : Params) (t sz : Int) : Prop :=
  hasTag mem (alignedSize P.maxMessageSize) t sz = true

instance (P : Params) (t sz : Int) : Decidable (Received mem P t sz) :=
  inferInstanceAs (Decidable (_ = _))

variable {mem a}

theorem short_bounds : -2 ^ 15 ≤ short mem a ∧ short mem a < 2 ^ 15 := by
  have h := Bytes.toInt_bounds (mem.slice a 2)
  rw [Memory.length_slice] at h
  unfold short
  omega

theorem int_bounds : -2 ^ 31 ≤ int mem a ∧ int mem a < 2 ^ 31 := by
  have h := Bytes.toInt_bounds (mem.slice a 4)
  rw [Memory.length_slice] at h
  unfold int
  omega

theorem Received.spec {P : Params} {t sz : Int} (h : Received mem P t sz) :
    tag mem = t ∧ sz ≤ size mem ∧ size mem % 8 = 0 ∧ size mem ≤ alignedSize P.maxMessageSize := by
  simp only [Received, hasTag, Bool.and_eq_true, Bool.not_eq_true',
    Bool.and_eq_false_iff, decide_eq_true_eq, decide_eq_false_iff_not,
    beq_iff_eq] at h
  refine ⟨h.1.1.2, h.1.2, h.2, ?_⟩
  rcases h.1.1.1 with h | h <;> omega

end Wire

end TinyBFT
