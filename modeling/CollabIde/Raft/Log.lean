import CollabIde.Raft.Types

/-!
# Indices into the log

Which indices the log of a peer holds, whatever its offset is.
-/

namespace CollabIde.Raft

variable {n : ℕ} {C D : Type} {rf rf' : Raft n C D}

theorem entry_isSome {i : ℤ} (h1 : rf.lastIncludedIndex ≤ i) (h2 : i ≤ rf.lastLogIndex) :
    ∃ e, rf.entry i = some e := by
  unfold lastLogIndex at h2
  exact get_isSome (by unfold logIndex; omega) (by unfold logIndex; omega)

theorem entriesFrom_isSome {i : ℤ} (h1 : rf.lastIncludedIndex ≤ i)
    (h2 : i ≤ rf.lastLogIndex + 1) : ∃ es, rf.entriesFrom i = some es := by
  unfold lastLogIndex at h2
  exact slice_isSome (by unfold logIndex; omega) (by unfold logIndex; omega) le_rfl

theorem entriesTo_isSome {i : ℤ} (h1 : rf.lastIncludedIndex ≤ i) (h2 : i ≤ rf.lastLogIndex) :
    ∃ es, rf.entriesTo i = some es := by
  unfold lastLogIndex at h2
  exact slice_isSome le_rfl (by unfold logIndex; omega) (by unfold logIndex; omega)

/-- An index with an entry lies in the log. -/
theorem bounds_of_entry {i : ℤ} {e : LogEntry C} (he : rf.entry i = some e) :
    rf.lastIncludedIndex ≤ i ∧ i ≤ rf.lastLogIndex := by
  by_contra hout
  have hnone : rf.entry i = none := by
    rw [entry, get_eq_none_iff, logIndex]
    unfold lastLogIndex at hout
    omega
  cases hnone.symm.trans he

/-- The entry of an index is where the offset says. -/
theorem entry_eq_getElem? {i : ℤ} (hi : rf.lastIncludedIndex ≤ i) :
    rf.entry i = rf.log[(i - rf.lastIncludedIndex).toNat]? :=
  if_pos (by unfold logIndex; omega)

theorem mem_of_entry {i : ℤ} {e : LogEntry C} (he : rf.entry i = some e) : e ∈ rf.log := by
  rw [entry_eq_getElem? (bounds_of_entry he).1] at he
  exact List.mem_of_getElem? he

variable (rf) in
/-- What is kept behind an index stays where it is. -/
theorem entry_kept {j i : ℤ} {e : LogEntry C} {rest : List (LogEntry C)}
    (hrest : rf.entriesFrom (j + 1) = some rest) (hlog : rf'.log = e :: rest)
    (hbase : rf'.lastIncludedIndex = j) (hij : j < i) : rf'.entry i = rf.entry i := by
  unfold entriesFrom slice at hrest
  split at hrest
  · rename_i hlo
    rw [List.take_of_length_le (by rw [List.length_drop]; omega), Option.some.injEq] at hrest
    unfold logIndex at hlo hrest
    have h1 : (i - j).toNat = (i - j - 1).toNat + 1 := by omega
    have h2 : (j + 1 - rf.lastIncludedIndex).toNat + (i - j - 1).toNat =
        (i - rf.lastIncludedIndex).toNat := by omega
    rw [entry_eq_getElem? (by omega), entry_eq_getElem? (by omega), hbase, hlog, h1,
      List.getElem?_cons_succ, ← hrest, List.getElem?_drop, h2]
  · cases hrest

end CollabIde.Raft
