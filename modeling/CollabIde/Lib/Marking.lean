import Mathlib.Data.Set.Insert
import Mathlib.Logic.Relation

/-!
# Marking what is reachable

Workers mark the nodes of a graph that can be reached from the roots. A worker that visits a node
marks it and will visit the nodes behind it; a node that is marked already is left alone, also when
the worker that has marked it is not done. `Marking E R M P`: with the roots `R` and the edges `E`,
`M` is marked, and `P` will be visited by somebody. When nothing is left to visit, what is marked is
what can be reached (`Marking.done`), in whatever order the workers have taken their steps.
-/

namespace CollabIde

variable {T : Type} {E : T → T → Prop} {R M P Q : Set T} {t : T}

variable (E R M P) in
structure Marking : Prop where
  roots : R ⊆ M ∪ P
  edges : ∀ t ∈ M, ∀ u, E t u → u ∈ M ∪ P
  reached : ∀ t ∈ M ∪ P, ∃ r ∈ R, Relation.ReflTransGen E r t

namespace Marking

theorem start : Marking E ∅ ∅ ∅ where
  roots := Set.empty_subset _
  edges t ht := absurd ht (Set.notMem_empty t)
  reached t ht := by
    rw [Set.union_empty] at ht
    exact absurd ht (Set.notMem_empty t)

/-- There are new roots, to be visited. -/
theorem root (h : Marking E R M P) (Q : Set T) : Marking E (R ∪ Q) M (P ∪ Q) where
  roots := by
    rw [← Set.union_assoc]
    exact Set.union_subset_union_left Q h.roots
  edges u hu v hv := (h.edges u hu v hv).imp_right .inl
  reached u hu := by
    have hold (hu : u ∈ M ∪ P) : ∃ r ∈ R ∪ Q, Relation.ReflTransGen E r u := by
      obtain ⟨r, hr, hru⟩ := h.reached u hu
      exact ⟨r, .inl hr, hru⟩
    obtain hu | hu | hu := hu
    · exact hold (.inl hu)
    · exact hold (.inr hu)
    · exact ⟨u, .inr hu, .refl⟩

/-- A marked node is not visited again. -/
theorem skip (h : Marking E R M P) (hsub : Q ⊆ P) (hkeep : P ⊆ M ∪ Q) : Marking E R M Q where
  roots _ hu := (h.roots hu).elim .inl fun hu => hkeep hu
  edges u hu v hv := (h.edges u hu v hv).elim .inl fun hv => hkeep hv
  reached u hu := h.reached u (hu.imp_right fun hu => hsub hu)

/-- A node is visited: it is marked, and the nodes behind it are to be visited. -/
theorem mark (h : Marking E R M P) (ht : t ∈ P) (hsub : Q ⊆ P ∪ {u | E t u})
    (hkeep : P ⊆ insert t Q) (hnext : {u | E t u} ⊆ Q) : Marking E R (insert t M) Q := by
  have hmove {u : T} (hu : u ∈ M ∪ P) : u ∈ insert t M ∪ Q := by
    obtain hu | hu := hu
    · exact .inl (Set.mem_insert_of_mem t hu)
    obtain rfl | hu := Set.mem_insert_iff.mp (hkeep hu)
    · exact .inl (Set.mem_insert u M)
    · exact .inr hu
  refine ⟨fun u hu => hmove (h.roots hu), fun u hu v hv => ?_, fun u hu => ?_⟩
  · obtain rfl | hu := Set.mem_insert_iff.mp hu
    · exact .inr (hnext hv)
    · exact hmove (h.edges u hu v hv)
  · have hroot := h.reached t (.inr ht)
    obtain hu | hu := hu
    · obtain rfl | hu := Set.mem_insert_iff.mp hu
      · exact hroot
      · exact h.reached u (.inl hu)
    obtain hu | hu := hsub hu
    · exact h.reached u (.inr hu)
    · obtain ⟨r, hr, hrt⟩ := hroot
      exact ⟨r, hr, hrt.tail hu⟩

/-- Nothing is left to visit. -/
theorem done (h : Marking E R M ∅) : t ∈ M ↔ ∃ r ∈ R, Relation.ReflTransGen E r t := by
  constructor
  · exact fun ht => h.reached t (.inl ht)
  · rintro ⟨r, hr, hrt⟩
    have hmarked {u : T} (hu : u ∈ M ∪ ∅) : u ∈ M := by rwa [Set.union_empty] at hu
    induction hrt with
    | refl => exact hmarked (h.roots hr)
    | tail _ hst ih => exact hmarked (h.edges _ ih _ hst)

end Marking

end CollabIde
