import Mathlib.Data.Multiset.Sort

/-!
# The k-th largest value

`kthLargest s k` is the value that stands behind `k` others once the values of `s` are sorted
downwards. It is at least `i` exactly if more than `k` of the values are (`le_kthLargest_iff`): a
quorum holds the index `i` exactly if `i` is not above the quorum's order statistic.
-/

namespace CollabIde

variable {α : Type} [LinearOrder α]

/-- The `k`-th largest value, where the largest is the 0-th. -/
def kthLargest (s : Multiset α) (k : ℕ) : Option α := (s.sort (· ≥ ·))[k]?

theorem countP_eq_zero_of_lt {l : List α} {i : α} (h : ∀ x ∈ l, x < i) :
    l.countP (i ≤ ·) = 0 := by
  rw [List.countP_eq_zero]
  intro x hx hle
  exact absurd (of_decide_eq_true hle) (h x hx).not_ge

/-- In a list that is sorted downwards. -/
theorem le_getElem?_iff {l : List α} (hl : l.Pairwise (· ≥ ·)) {k : ℕ} {m : α}
    (hm : l[k]? = some m) (i : α) : i ≤ m ↔ k < l.countP (i ≤ ·) := by
  induction l generalizing k with
  | nil => cases hm
  | cons a l ih =>
    obtain ⟨ha, hl⟩ := List.pairwise_cons.mp hl
    by_cases hi : i ≤ a
    · rw [List.countP_cons_of_pos (p := fun x => decide (i ≤ x)) (decide_eq_true hi)]
      cases k with
      | zero =>
        cases hm
        exact iff_of_true hi (Nat.succ_pos _)
      | succ k =>
        rw [ih hl hm]
        omega
    · -- all values are below `i`
      rw [List.countP_cons_of_neg (p := fun x => decide (i ≤ x)) (by simpa using hi),
        countP_eq_zero_of_lt fun x hx => (ha x hx).trans_lt (not_le.mp hi)]
      refine iff_of_false (fun him => hi ?_) (Nat.not_lt_zero k)
      obtain rfl | hm := List.mem_cons.mp (List.mem_of_getElem? hm)
      · exact him
      · exact him.trans (ha m hm)

theorem le_kthLargest_iff {s : Multiset α} {k : ℕ} {m : α} (h : kthLargest s k = some m) (i : α) :
    i ≤ m ↔ k < s.countP (i ≤ ·) := by
  rw [le_getElem?_iff (Multiset.pairwise_sort s (· ≥ ·)) h i, ← Multiset.coe_countP,
    Multiset.sort_eq]

/-- There is a `k`-th largest value as long as there are more than `k` values. -/
theorem kthLargest_isSome {s : Multiset α} {k : ℕ} (h : k < s.card) :
    ∃ m, kthLargest s k = some m :=
  ⟨_, List.getElem?_eq_getElem (by rw [Multiset.length_sort]; exact h)⟩

theorem mem_of_kthLargest {s : Multiset α} {k : ℕ} {m : α} (h : kthLargest s k = some m) : m ∈ s :=
  (Multiset.mem_sort (r := (· ≥ ·))).mp (List.mem_of_getElem? h)

end CollabIde
