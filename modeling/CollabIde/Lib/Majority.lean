import Mathlib.Data.Fintype.Card
import Mathlib.Tactic.Order

/-!
# Majorities

A majority of a finite type is a set with more than half of its elements. Two majorities meet
(`IsMajority.meet`), which is all that a voting protocol needs of them.
-/

namespace CollabIde

variable {N : Type} [Fintype N]

/-- More than half of all elements. -/
def IsMajority (Q : Finset N) : Prop := Fintype.card N < 2 * Q.card

theorem IsMajority.meet [DecidableEq N] {Q Q' : Finset N} (h : IsMajority Q)
    (h' : IsMajority Q') : ∃ v ∈ Q, v ∈ Q' := by
  unfold IsMajority at h h'
  have hu : (Q ∪ Q').card ≤ Fintype.card N := Finset.card_le_univ _
  have hi := Finset.card_union_add_card_inter Q Q'
  have hpos : 0 < (Q ∩ Q').card := by omega
  obtain ⟨v, hv⟩ := Finset.card_pos.mp hpos
  exact ⟨v, (Finset.mem_inter.mp hv).1, (Finset.mem_inter.mp hv).2⟩

theorem IsMajority.mono {Q Q' : Finset N} (h : IsMajority Q) (hs : Q ⊆ Q') : IsMajority Q' := by
  unfold IsMajority at h ⊢
  have := Finset.card_le_card hs
  omega

end CollabIde
