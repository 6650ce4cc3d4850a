import Mathlib.Data.Finset.Card

/-!
# Quorums of voters, some of them faulty

An election has a finite set of voters. A faulty voter may vote for anything and as often as it
likes; what the others have voted for is recorded, and each of them votes once (`Single`). A
*certificate* for a ballot is a set of voters such that those of them that are correct have voted
for the ballot. Two certificates that are large enough share a correct voter, and then they are for
one ballot; one certificate that is larger than the set of the faulty voters has a correct voter.
-/

namespace Quorum

variable {ι β : Type*}

structure Election (ι β : Type*) where
  voters : Finset ι
  faulty : Finset ι
  voted : ι → β → Prop

variable {E : Election ι β} {A B : Finset ι} {b b' : β}

/-- A correct voter votes for one ballot. -/
def Election.Single (E : Election ι β) : Prop :=
  ∀ i ∈ E.voters, i ∉ E.faulty → ∀ b b', E.voted i b → E.voted i b' → b = b'

/-- The correct voters of `A` have voted for `b`. -/
structure Election.Certifies (E : Election ι β) (A : Finset ι) (b : β) : Prop where
  subset : A ⊆ E.voters
  voted : ∀ i ∈ A, i ∉ E.faulty → E.voted i b

/-- A certificate that is larger than the set of the faulty voters has a correct voter. -/
theorem Election.Certifies.exists_voted (h : E.Certifies A b) (hcard : E.faulty.card < A.card) :
    ∃ i ∈ E.voters, i ∉ E.faulty ∧ E.voted i b := by
  obtain ⟨i, hi, hc⟩ := Finset.exists_mem_notMem_of_card_lt_card hcard
  exact ⟨i, h.subset hi, hc, h.voted i hi hc⟩

variable [DecidableEq ι]

/-- **Quorum intersection.** Two sets of voters that have more members together than there are
voters and faulty ones share a correct voter. -/
theorem exists_common {U F : Finset ι} (hA : A ⊆ U) (hB : B ⊆ U)
    (hcard : U.card + F.card < A.card + B.card) :
    ∃ i ∈ A, i ∈ B ∧ i ∉ F := by
  have hunion : (A ∪ B).card ≤ U.card := Finset.card_le_card (Finset.union_subset hA hB)
  have hsum := Finset.card_union_add_card_inter A B
  obtain ⟨i, hi, hc⟩ :=
    Finset.exists_mem_notMem_of_card_lt_card (show F.card < (A ∩ B).card by omega)
  obtain ⟨h1, h2⟩ := Finset.mem_inter.1 hi
  exact ⟨i, h1, h2, hc⟩

/-- **Two large certificates** are for one ballot. -/
theorem Election.Certifies.unique (hs : E.Single) (h : E.Certifies A b) (h' : E.Certifies B b')
    (hcard : E.voters.card + E.faulty.card < A.card + B.card) : b = b' := by
  obtain ⟨i, hA, hB, hc⟩ := exists_common h.subset h'.subset hcard
  exact hs i (h.subset hA) hc b b' (h.voted i hA hc) (h'.voted i hB hc)

end Quorum
