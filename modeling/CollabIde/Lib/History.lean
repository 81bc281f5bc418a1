import Mathlib.Data.List.Infix
import Mathlib.Tactic.Order
import CollabIde.Lib.Majority

/-!
# Histories of entries with terms

A history is a list of entries, each with a term. `p ++ [e] <+: h` says that `e` is the entry of
`h` right after the first `p.length` ones: positions are named by the prefix that ends there, so
that two histories agree up to a position as soon as one such prefix is a prefix of both.

* `Sorted`: terms do not decrease along a history.
* `prefix_of_term_ne`: a prefix that ends before the entries of one term were added.
* `UpToDate h g`: the voting order of histories (last term first, then length).
-/

namespace CollabIde

/-- Entries that carry a term. -/
class HasTerm (E : Type) (T : outParam Type) where
  termOf : E → T

export HasTerm (termOf)

section Prefix

variable {E : Type}

theorem prefix_comparable {l₁ l₂ l : List E} (h₁ : l₁ <+: l) (h₂ : l₂ <+: l) :
    l₁ <+: l₂ ∨ l₂ <+: l₁ := by
  rcases Nat.le_total l₁.length l₂.length with h | h
  · exact .inl (List.prefix_of_prefix_length_le h₁ h₂ h)
  · exact .inr (List.prefix_of_prefix_length_le h₂ h₁ h)

theorem prefix_eq_of_length {l₁ l₂ l : List E} (h₁ : l₁ <+: l) (h₂ : l₂ <+: l)
    (h : l₁.length = l₂.length) : l₁ = l₂ :=
  (List.prefix_of_prefix_length_le h₁ h₂ h.le).eq_of_length h

theorem prefix_take_iff {l h : List E} {k : ℕ} :
    l <+: h.take k ↔ l <+: h ∧ l.length ≤ k := by
  constructor
  · intro hp
    exact ⟨hp.trans (List.take_prefix _ _), hp.length_le.trans (List.length_take_le _ _)⟩
  · rintro ⟨hp, hk⟩
    rw [List.prefix_iff_eq_take.mp hp]
    exact List.take_prefix_take_left hk

theorem take_prefix_of_isPrefix {l h : List E} {k : ℕ} (hp : l <+: h) (hk : l.length ≤ k) :
    l <+: h.take k := prefix_take_iff.mpr ⟨hp, hk⟩

/-- The first `k` entries of a prefix are the first `k` entries. -/
theorem take_eq_of_isPrefix {l h : List E} {k : ℕ} (hp : l <+: h) (hk : k ≤ l.length) :
    h.take k = l.take k := by
  obtain ⟨r, rfl⟩ := hp
  rw [List.take_append_of_le_length hk]

theorem append_singleton_isPrefix {p h : List E} {e : E} (hp : p ++ [e] <+: h) :
    p <+: h := (List.prefix_append p [e]).trans hp

theorem ends_of_getElem? {h : List E} {i : ℕ} {e : E} (hi : h[i]? = some e) :
    h.take i ++ [e] <+: h := by
  obtain ⟨hlt, rfl⟩ := List.getElem?_eq_some_iff.mp hi
  rw [← List.take_succ_eq_append_getElem hlt]
  exact List.take_prefix _ _

theorem mem_of_ends {p h : List E} {e : E} (hp : p ++ [e] <+: h) : e ∈ h :=
  hp.subset (by simp)

/-- A prefix of `M ++ [x]` is one of `M`, or all of it. -/
theorem prefix_append_singleton {p M : List E} {e x : E} (hp : p ++ [e] <+: M ++ [x]) :
    p ++ [e] <+: M ∨ p = M ∧ e = x := by
  rcases List.prefix_concat_iff.mp hp with h | h
  · exact .inr (by simpa using h)
  · exact .inl h

/-- A cut shorter than `k` of a history that starts with the first `k` entries of `L` drops an
entry that `L` has after its prefix `M`. -/
theorem mem_drop_of_take_isPrefix {L M h : List E} {k : ℕ} (hk : k ≤ L.length)
    (hh : L.take k <+: h) (hlt : M.length < k) :
    ∃ x ∈ h.drop M.length, x ∈ L.drop M.length := by
  have hx : L.length > M.length := by omega
  refine ⟨L[M.length], ?_, ?_⟩
  · have hlen : M.length < (L.take k).length := by rw [List.length_take]; omega
    have h1 : h[M.length]? = some L[M.length] := by
      obtain ⟨r, rfl⟩ := hh
      rw [List.getElem?_append_left hlen, List.getElem?_take, if_pos hlt]
      exact List.getElem?_eq_getElem hx
    obtain ⟨hlt', he⟩ := List.getElem?_eq_some_iff.mp h1
    rw [← he]
    exact List.mem_drop_iff_getElem.mpr ⟨0, by omega, by simp⟩
  · exact List.mem_drop_iff_getElem.mpr ⟨0, by omega, by simp⟩

end Prefix

section Terms

variable {E T : Type} [HasTerm E T]

/-- The entries of `L` after its prefix `M` all have term `t`: a position of another term is
one of `M`. -/
theorem prefix_of_term_ne {L M p : List E} {e : E} {t : T} (hM : M <+: L)
    (ht : ∀ x ∈ L.drop M.length, termOf x = t) (hp : p ++ [e] <+: L) (he : termOf e ≠ t) :
    p ++ [e] <+: M := by
  by_cases hle : p.length < M.length
  · exact List.prefix_of_prefix_length_le hp hM (by simp; omega)
  · exfalso
    refine he (ht e ?_)
    obtain ⟨r, rfl⟩ := hp
    rw [List.append_assoc, List.drop_append_of_le_length (by omega)]
    simp

variable [LinearOrder T]

/-- Terms do not decrease along the history. -/
def Sorted (h : List E) : Prop := h.Pairwise fun x y => termOf x ≤ termOf y

theorem Sorted.of_isPrefix {h h' : List E} (hs : Sorted h) (hp : h' <+: h) : Sorted h' :=
  List.Pairwise.sublist hp.sublist hs

theorem Sorted.append_singleton {h : List E} {e : E} (hs : Sorted h)
    (he : ∀ x ∈ h, termOf x ≤ termOf e) : Sorted (h ++ [e]) := by
  unfold Sorted at *
  rw [List.pairwise_append]
  refine ⟨hs, List.pairwise_singleton _ _, fun x hx y hy => ?_⟩
  rw [List.mem_singleton.mp hy]
  exact he x hx

/-- In a sorted history a smaller term stands at an earlier position. -/
theorem Sorted.length_lt {h p q : List E} {e f : E} (hs : Sorted h) (hp : p ++ [e] <+: h)
    (hq : q ++ [f] <+: h) (hlt : termOf e < termOf f) : p.length < q.length := by
  by_contra hge
  rcases Nat.lt_or_ge q.length p.length with h1 | h1
  · have hqp : q ++ [f] <+: p :=
      List.prefix_of_prefix_length_le hq (append_singleton_isPrefix hp) (by simp; omega)
    have := (List.pairwise_append.mp (hs.of_isPrefix hp)).2.2 f (mem_of_ends hqp) e (by simp)
    order
  · have heq : p ++ [e] = q ++ [f] := prefix_eq_of_length hp hq (by simp; omega)
    have : e = f := by simpa using congrArg List.getLast? heq
    subst this
    order

/-- `h` is at least as up to date as `g`: a later last term, or the same last term and at least
the length. -/
def UpToDate (h g : List E) : Prop :=
  ∀ q f, g = q ++ [f] → ∃ p e, h = p ++ [e] ∧
    (termOf f < termOf e ∨ termOf f = termOf e ∧ g.length ≤ h.length)

end Terms

end CollabIde
