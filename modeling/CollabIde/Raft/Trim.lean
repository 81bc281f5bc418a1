import CollabIde.Lib.History
import CollabIde.Raft.Types

/-!
# The log of a peer is a history trimmed at its snapshot

`trimmed h b` is what a peer keeps of the history `h` (the entries of the indices 1, 2, …) once
the first `b` entries are in a snapshot: a dummy entry with the last term of the snapshot, and the
rest. `Raft.Keeps` says that a peer's log is trimmed so; its lemmas give each index and slice
expression on the log as one on the history.
-/

namespace CollabIde

variable {C D : Type} {n : ℕ}

/-- The term of the last entry, 0 if there is none. -/
def lastTerm (h : List (LogEntry C)) : ℤ := h.getLast?.elim 0 LogEntry.term

@[simp] theorem lastTerm_nil : lastTerm ([] : List (LogEntry C)) = 0 := rfl

@[simp] theorem lastTerm_append_singleton (h : List (LogEntry C)) (e : LogEntry C) :
    lastTerm (h ++ [e]) = e.term := by simp [lastTerm]

theorem lastTerm_nonneg {h : List (LogEntry C)} (hpos : ∀ e ∈ h, 0 < e.term) : 0 ≤ lastTerm h := by
  rcases List.eq_nil_or_concat h with rfl | ⟨p, e, rfl⟩
  · exact le_rfl
  · rw [List.concat_eq_append, lastTerm_append_singleton]
    exact (hpos e (by simp)).le

/-- The history `h` with its first `b` entries in a snapshot. -/
def trimmed (h : List (LogEntry C)) (b : ℕ) : List (LogEntry C) :=
  ⟨lastTerm (h.take b), none⟩ :: h.drop b

section Trimmed

variable {h M : List (LogEntry C)} {b i k : ℕ} {e : LogEntry C}

theorem take_succ_eq (hi : i < h.length) : h.take (i + 1) = h.take i ++ [h[i]] :=
  List.take_succ_eq_append_getElem hi

theorem trimmed_length : (trimmed h b).length = h.length - b + 1 := by
  simp [trimmed]

/-- The entry at index `i` has the term of the history's entry, also the dummy one. -/
theorem trimmed_getElem? (hb : b ≤ i) (hi : i ≤ h.length) :
    ∃ e, (trimmed h b)[i - b]? = some e ∧ e.term = lastTerm (h.take i) ∧
      (b < i → h[i - 1]? = some e) := by
  rcases hb.eq_or_lt with rfl | hlt
  · exact ⟨⟨lastTerm (h.take b), none⟩, by simp [trimmed], rfl, fun h => absurd h (lt_irrefl _)⟩
  · obtain ⟨j, rfl⟩ : ∃ j, i = j + 1 := ⟨i - 1, by omega⟩
    have hj : j < h.length := by omega
    refine ⟨h[j], ?_, ?_, fun _ => by simp [hj]⟩
    · rw [trimmed, show j + 1 - b = (j - b) + 1 by omega, List.getElem?_cons_succ,
        List.getElem?_drop, show b + (j - b) = j by omega, List.getElem?_eq_getElem hj]
    · rw [take_succ_eq hj, lastTerm_append_singleton]

/-- Cut after index `i` and extended. -/
theorem trimmed_take_append (hb : b ≤ i) (hM : h.take i = M.take i) :
    (trimmed h b).take (i - b + 1) ++ M.drop i = trimmed M b := by
  have hbM : h.take b = M.take b := by
    have := congrArg (List.take b) hM
    simpa [List.take_take, hb] using this
  have hd : (h.drop b).take (i - b) = (M.drop b).take (i - b) := by
    rw [← List.drop_take, ← List.drop_take, hM]
  rw [trimmed, List.take_succ_cons, List.cons_append, hd, hbM, trimmed]
  congr 1
  conv_rhs => rw [← List.take_append_drop (i - b) (M.drop b)]
  rw [List.drop_drop, show b + (i - b) = i by omega]

theorem trimmed_drop (hb : b ≤ k) : (trimmed h b).drop (k - b + 1) = h.drop k := by
  rw [trimmed, List.drop_succ_cons, List.drop_drop, show b + (k - b) = k by omega]

theorem trimmed_append (hb : b ≤ h.length) : trimmed h b ++ [e] = trimmed (h ++ [e]) b := by
  rw [trimmed, trimmed, List.drop_append_of_le_length hb, List.take_append_of_le_length hb,
    List.cons_append]

end Trimmed

namespace Raft

/-- The log of the peer is the history `h` trimmed at `b`. -/
structure Keeps (rf : Raft n C D) (h : List (LogEntry C)) (b : ℕ) : Prop where
  log : rf.log = trimmed h b
  index : rf.lastIncludedIndex = b
  term : rf.lastIncludedTerm = lastTerm (h.take b)
  le : b ≤ h.length

namespace Keeps

variable {rf : Raft n C D} {h : List (LogEntry C)} {b i : ℕ}

theorem length (hk : rf.Keeps h b) : (rf.log.length : ℤ) = h.length - b + 1 := by
  have := hk.le
  rw [hk.log, trimmed_length (h := h) (b := b)]
  omega

theorem lastLogIndex (hk : rf.Keeps h b) : rf.lastLogIndex = h.length := by
  rw [Raft.lastLogIndex, hk.length, hk.index]
  omega

theorem logIndex (hk : rf.Keeps h b) (j : ℤ) : rf.logIndex j = j - b := by
  rw [Raft.logIndex, hk.index]

/-- The entry at an index that the log holds. -/
theorem entry (hk : rf.Keeps h b) (hb : b ≤ i) (hi : i ≤ h.length) :
    ∃ e, rf.entry i = some e ∧ e.term = lastTerm (h.take i) ∧ (b < i → h[i - 1]? = some e) := by
  obtain ⟨e, he, h1, h2⟩ := trimmed_getElem? hb hi
  refine ⟨e, ?_, h1, h2⟩
  rw [Raft.entry, hk.logIndex, hk.log, show (i : ℤ) - b = ((i - b : ℕ) : ℤ) by omega, get_natCast,
    he]

/-- Behind the snapshot the log has the history's entries. -/
theorem entry_eq (hk : rf.Keeps h b) (hb : b < i) (hi : i ≤ h.length) :
    rf.entry i = h[i - 1]? := by
  obtain ⟨e, he, -, h2⟩ := hk.entry hb.le hi
  rw [he, h2 hb]

/-- An integer index that the log holds is an index of the history. -/
theorem nat_of_le (hk : rf.Keeps h b) {j : ℤ} (h1 : rf.lastIncludedIndex ≤ j)
    (h2 : j ≤ rf.lastLogIndex) : ∃ i : ℕ, j = i ∧ b ≤ i ∧ i ≤ h.length := by
  rw [hk.index] at h1
  rw [hk.lastLogIndex] at h2
  exact ⟨j.toNat, by omega, by omega, by omega⟩

/-- Only the indices that the log holds have an entry. -/
theorem le_of_entry (hk : rf.Keeps h b) {j : ℤ} {e : LogEntry C} (he : rf.entry j = some e) :
    rf.lastIncludedIndex ≤ j ∧ j ≤ rf.lastLogIndex := by
  by_contra hlt
  have hn : rf.entry j = none := by
    rw [Raft.entry, get_eq_none_iff, hk.length, hk.logIndex]
    rw [hk.index, hk.lastLogIndex] at hlt
    omega
  rw [hn] at he
  cases he

theorem entriesFrom (hk : rf.Keeps h b) (hb : b ≤ i) (hi : i ≤ h.length) :
    rf.entriesFrom (i + 1) = some (h.drop i) := by
  have hl := trimmed_length (h := h) (b := b)
  rw [Raft.entriesFrom, hk.logIndex, hk.log,
    show (i : ℤ) + 1 - b = ((i - b + 1 : ℕ) : ℤ) by omega, slice_suffix (by omega),
    trimmed_drop hb]

theorem entriesTo (hk : rf.Keeps h b) (hb : b ≤ i) (hi : i ≤ h.length) :
    rf.entriesTo i = some ((trimmed h b).take (i - b + 1)) := by
  have hl := trimmed_length (h := h) (b := b)
  rw [Raft.entriesTo, hk.logIndex, hk.log,
    show (i : ℤ) - b + 1 = ((i - b + 1 : ℕ) : ℤ) by omega, slice_isPrefix (by omega)]

end Keeps

end Raft

end CollabIde
