import Mathlib.Data.List.Nodup

/-!
# Linearizability

What the callers of an object see is a **history**: `call k q`, the call `k` begins with the request
`q`, and `ret k a`, it returns the answer `a`. Calls overlap, and a call may never return. A history
is **linearizable** if there is an order of calls, all those that have returned and some of the
others, in which the object, taking one call after the other, gives the answers that have been
returned, and in which a call that had returned when another began comes first.

An implementation that settles the order as it runs keeps it by `Linearizes.call`, `Linearizes.ret`
and `Linearizes.extend`: only the end of the order is ever added to.
-/

namespace CollabIde

namespace Linearizability

inductive Event (K Q A : Type) where
  | call (k : K) (q : Q)
  | ret (k : K) (a : A)
  deriving DecidableEq

variable {K Q A S : Type}

/-- The object after the calls. -/
def after (f : S → Q → S × A) (s : S) (L : List (K × Q)) : S :=
  L.foldl (fun s c => (f s c.2).1) s

/-- The calls in the order `L` explain the history; `f` is the object, `s` its first state. -/
structure Linearizes (f : S → Q → S × A) (s : S) (H : List (Event K Q A)) (L : List (K × Q)) :
    Prop where
  nodup : (L.map Prod.fst).Nodup
  called : ∀ c ∈ L, Event.call c.1 c.2 ∈ H
  answered : ∀ k a, Event.ret k a ∈ H →
    ∃ (i : ℕ) (q : Q), L[i]? = some (k, q) ∧ a = (f (after f s (L.take i)) q).2
  ordered : ∀ k a k' q', [Event.ret k a, Event.call k' q'].Sublist H →
    ∀ (i j : ℕ) (q r : Q), L[i]? = some (k, q) → L[j]? = some (k', r) → i < j

variable {f : S → Q → S × A} {s : S} {H : List (Event K Q A)} {L : List (K × Q)} {k : K} {q : Q}
  {a : A}

/-- A pair in a history that has grown by one event. -/
theorem sublist_snoc {α : Type} {x y z : α} {l : List α} (h : [x, y].Sublist (l ++ [z])) :
    [x, y].Sublist l ∨ x ∈ l ∧ y = z := by
  obtain ⟨l₁, l₂, heq, h₁, h₂⟩ := List.sublist_append_iff.mp h
  obtain rfl | rfl := List.sublist_singleton.mp h₂
  · rw [List.append_nil] at heq
    exact .inl (heq ▸ h₁)
  · obtain ⟨rfl, hy⟩ : [x] = l₁ ∧ [y] = [z] := List.append_inj' heq rfl
    exact .inr ⟨h₁.mem List.mem_cons_self, List.head_eq_of_cons_eq hy⟩

namespace Linearizes

theorem nil : Linearizes f s ([] : List (Event K Q A)) [] where
  nodup := List.nodup_nil
  called _ hc := absurd hc List.not_mem_nil
  answered _ _ hr := absurd hr List.not_mem_nil
  ordered _ _ _ _ _ _ _ _ _ hi := by cases hi

/-- A call begins. -/
theorem call (h : Linearizes f s H L) (hnew : ∀ q, Event.call k q ∉ H) :
    Linearizes f s (H ++ [.call k q]) L where
  nodup := h.nodup
  called c hc := List.mem_append_left _ (h.called c hc)
  answered k' a hr := by
    obtain hr | hr := List.mem_append.mp hr
    · exact h.answered k' a hr
    · cases List.mem_singleton.mp hr
  ordered k₁ a k₂ q₂ hsub i j q₁ r hi hj := by
    obtain hsub | ⟨-, heq⟩ := sublist_snoc hsub
    · exact h.ordered k₁ a k₂ q₂ hsub i j q₁ r hi hj
    · -- the new call is not in the order
      cases heq
      exact absurd (h.called _ (List.mem_of_getElem? hj)) (hnew r)

/-- A call of the order returns its answer. -/
theorem ret (h : Linearizes f s H L) {i : ℕ} (hi : L[i]? = some (k, q))
    (ha : a = (f (after f s (L.take i)) q).2) : Linearizes f s (H ++ [.ret k a]) L where
  nodup := h.nodup
  called c hc := List.mem_append_left _ (h.called c hc)
  answered k' a' hr := by
    obtain hr | hr := List.mem_append.mp hr
    · exact h.answered k' a' hr
    · cases List.mem_singleton.mp hr
      exact ⟨i, q, hi, ha⟩
  ordered k₁ a₁ k₂ q₂ hsub i j q₁ r hi hj := by
    obtain hsub | ⟨-, heq⟩ := sublist_snoc hsub
    · exact h.ordered k₁ a₁ k₂ q₂ hsub i j q₁ r hi hj
    · cases heq

/-- A call that is not in the order yet comes last. -/
theorem extend (h : Linearizes f s H L) (hcall : Event.call k q ∈ H)
    (hnew : k ∉ L.map Prod.fst) : Linearizes f s H (L ++ [(k, q)]) where
  nodup := by
    rw [List.map_append, List.nodup_append]
    refine ⟨h.nodup, List.nodup_singleton k, fun x hx y hy => ?_⟩
    cases List.mem_singleton.mp hy
    rintro rfl
    exact hnew hx
  called c hc := by
    obtain hc | hc := List.mem_append.mp hc
    · exact h.called c hc
    · cases List.mem_singleton.mp hc
      exact hcall
  answered k' a hr := by
    obtain ⟨i, q', hi, ha⟩ := h.answered k' a hr
    have hlt := (List.getElem?_eq_some_iff.mp hi).1
    refine ⟨i, q', by rw [List.getElem?_append_left hlt, hi], ?_⟩
    rw [List.take_append_of_le_length (Nat.le_of_lt hlt)]
    exact ha
  ordered k₁ a k₂ q₂ hsub i j q₁ r hi hj := by
    -- the call that has returned is in the old order
    obtain ⟨i', q', hi', -⟩ := h.answered k₁ a (hsub.mem List.mem_cons_self)
    have hlt := (List.getElem?_eq_some_iff.mp hi').1
    have hne : i < L.length := by
      by_contra hle
      have hlen := (List.getElem?_eq_some_iff.mp hi).1
      rw [List.length_append, List.length_singleton] at hlen
      obtain rfl : i = L.length := by omega
      rw [List.getElem?_concat_length, Option.some.injEq, Prod.mk.injEq] at hi
      exact hnew (List.mem_map.mpr ⟨_, List.mem_of_getElem? hi', hi.1.symm⟩)
    rw [List.getElem?_append_left hne] at hi
    by_cases hjl : j < L.length
    · rw [List.getElem?_append_left hjl] at hj
      exact h.ordered k₁ a k₂ q₂ hsub i j q₁ r hi hj
    · omega

end Linearizes

end Linearizability

end CollabIde
