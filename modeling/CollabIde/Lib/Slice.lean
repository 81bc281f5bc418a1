import Mathlib.Data.List.TakeDrop
import Mathlib.Data.Int.Order.Basic
import Mathlib.Tactic.Ring

/-!
# Index and slice expressions with their bounds check

`get xs i` and `slice xs lo hi` are `xs[i]` and `xs[lo:hi]` with integer bounds: `none` if a bound
lies outside the elements that the list holds, where the program stops (or reads what is left
behind the end).
-/

namespace CollabIde

variable {α : Type}

/-- `xs[i]`. -/
def get (xs : List α) (i : ℤ) : Option α := if 0 ≤ i then xs[i.toNat]? else none

/-- `xs[lo:hi]`. -/
def slice (xs : List α) (lo hi : ℤ) : Option (List α) :=
  if 0 ≤ lo ∧ lo ≤ hi ∧ hi ≤ xs.length then some ((xs.drop lo.toNat).take (hi - lo).toNat)
  else none

theorem get_natCast (xs : List α) (i : ℕ) : get xs i = xs[i]? := by
  simp [get]

theorem get_eq_none_iff {xs : List α} {i : ℤ} : get xs i = none ↔ i < 0 ∨ xs.length ≤ i := by
  unfold get
  split
  · rw [List.getElem?_eq_none_iff]; omega
  · simp; omega

theorem get_isSome {xs : List α} {i : ℤ} (h0 : 0 ≤ i) (h : i < xs.length) :
    ∃ x, get xs i = some x :=
  Option.ne_none_iff_exists'.mp fun hn => by
    rcases get_eq_none_iff.mp hn with h1 | h1 <;> omega

theorem slice_isPrefix {xs : List α} {k : ℕ} (hk : k ≤ xs.length) :
    slice xs 0 k = some (xs.take k) := by
  simp [slice, hk]

theorem slice_suffix {xs : List α} {k : ℕ} (hk : k ≤ xs.length) :
    slice xs k xs.length = some (xs.drop k) := by
  rw [slice, if_pos ⟨by omega, by omega, le_rfl⟩, Int.toNat_natCast, List.take_of_length_le]
  rw [List.length_drop]
  omega

theorem slice_isSome {xs : List α} {lo hi : ℤ} (h0 : 0 ≤ lo) (h1 : lo ≤ hi)
    (h2 : hi ≤ xs.length) : ∃ ys, slice xs lo hi = some ys :=
  ⟨_, if_pos ⟨h0, h1, h2⟩⟩

theorem slice_length {xs ys : List α} {lo hi : ℤ} (h : slice xs lo hi = some ys) :
    (ys.length : ℤ) = hi - lo := by
  unfold slice at h
  split at h
  · cases h
    rw [List.length_take, List.length_drop]
    omega
  · cases h

theorem slice_subset {xs ys : List α} {lo hi : ℤ} (h : slice xs lo hi = some ys) : ys ⊆ xs := by
  unfold slice at h
  split at h
  · cases h
    exact fun x hx => List.mem_of_mem_drop (List.mem_of_mem_take hx)
  · cases h

theorem slice_getElem? {xs ys : List α} {lo hi : ℤ} {i : ℕ} {y : α}
    (h : slice xs lo hi = some ys) (hy : ys[i]? = some y) :
    0 ≤ lo ∧ lo + i < hi ∧ xs[lo.toNat + i]? = some y := by
  unfold slice at h
  split at h
  · cases h
    rw [List.getElem?_take] at hy
    split at hy
    · exact ⟨by omega, by omega, by rw [← List.getElem?_drop, hy]⟩
    · cases hy
  · cases h

end CollabIde
