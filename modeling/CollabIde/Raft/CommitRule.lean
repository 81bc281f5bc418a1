import CollabIde.Lib.OrderStatistic
import CollabIde.Raft.Bounds

/-!
# The commit loop is the quorum rule

What a leader has and what it counts for the others are `n` values. The largest index that a
majority holds is one of them, the `n / 2`-th largest (counted from 0): a leader that processes a
successful append goes there if that entry is of its term, and stays where it is otherwise.
-/

namespace CollabIde.Raft

variable {n : ℕ} {C D : Type} (rf : Raft n C D)

/-- The last index of the leader, and what it counts for each other peer. -/
def held : Multiset ℤ :=
  rf.lastLogIndex ::ₘ (Finset.univ.filter (· ≠ rf.me)).val.map rf.matchIndex

/-- An entry of the term that a majority holds. -/
def Committable (t i : ℤ) : Prop :=
  (rf.entry i).map LogEntry.term = some t ∧ n / 2 + 1 ≤ rf.replicated i

/-- Behind the snapshot the terms do not decrease, and none is later than the peer's. -/
structure Sorted : Prop where
  mono : ∀ {i j : ℤ} {e e' : LogEntry C}, rf.lastIncludedIndex < i → i ≤ j →
    rf.entry i = some e → rf.entry j = some e' → e.term ≤ e'.term
  le : ∀ {i : ℤ} {e : LogEntry C}, rf.lastIncludedIndex < i → rf.entry i = some e →
    e.term ≤ rf.currentTerm

variable {rf}

/-- The terms of the list behind the sentinel. -/
theorem Sorted.of_pairwise (h : rf.log.tail.Pairwise fun e e' => e.term ≤ e'.term)
    (hle : ∀ e ∈ rf.log.tail, e.term ≤ rf.currentTerm) : rf.Sorted := by
  have hmem {i : ℤ} (hi : rf.lastIncludedIndex < i) {e : LogEntry C} (he : rf.entry i = some e) :
      rf.log.tail[(i - rf.lastIncludedIndex).toNat - 1]? = some e := by
    rw [List.getElem?_tail, ← he, entry_eq_getElem? hi.le]
    congr 1
    omega
  refine ⟨fun {i j e e'} hi hij he he' => ?_,
    fun hi he => hle _ (List.mem_of_getElem? (hmem hi he))⟩
  obtain ⟨h1, h2⟩ := List.getElem?_eq_some_iff.mp (hmem hi he)
  obtain ⟨h3, h4⟩ := List.getElem?_eq_some_iff.mp (hmem (hi.trans_le hij) he')
  rw [← h2, ← h4]
  obtain rfl | hlt := hij.eq_or_lt
  · exact le_rfl
  · exact List.pairwise_iff_getElem.mp h _ _ h1 h3 (by omega)

/-! ## The order statistic -/

theorem card_held : rf.held.card = n := by
  have hme : (Finset.univ.filter fun j => j ≠ rf.me) = Finset.univ.erase rf.me := by
    ext j
    simp
  have hpos := rf.me.pos
  rw [held, hme, Multiset.card_cons, Multiset.card_map, Finset.card_val,
    Finset.card_erase_of_mem (Finset.mem_univ _), Finset.card_univ, Fintype.card_fin]
  omega

/-- The leader counts itself and the peers that hold the index. -/
theorem countP_held {i : ℤ} (hi : i ≤ rf.lastLogIndex) :
    rf.held.countP (i ≤ ·) = rf.replicated i := by
  rw [held, Multiset.countP_cons_of_pos _ hi, Multiset.countP_map, replicated, add_comm,
    ← Finset.filter_val, Finset.card_val, Finset.filter_filter]

/-- The quorum holds what is not above the order statistic. -/
theorem quorum_iff {m i : ℤ} (hm : kthLargest rf.held (n / 2) = some m)
    (hi : i ≤ rf.lastLogIndex) : i ≤ m ↔ n / 2 + 1 ≤ rf.replicated i := by
  rw [le_kthLargest_iff hm, countP_held hi]
  exact Nat.lt_iff_add_one_le

/-- It is not above the last index if the counts are not. -/
theorem quorum_le {m : ℤ} (hmatch : ∀ j, j ≠ rf.me → rf.matchIndex j ≤ rf.lastLogIndex)
    (hm : kthLargest rf.held (n / 2) = some m) : m ≤ rf.lastLogIndex := by
  obtain rfl | h := Multiset.mem_cons.mp (mem_of_kthLargest hm)
  · exact le_rfl
  · obtain ⟨j, hj, rfl⟩ := Multiset.mem_map.mp h
    exact hmatch j (Finset.mem_filter.mp (Finset.mem_val.mp hj)).2

/-! ## The loop -/

/-- The loop passes over no index that it could take. -/
theorem newCommitIndex_greatest {t c : ℤ} {k : ℕ} (h : rf.newCommitIndex t k = some c) {i : ℤ}
    (hi : rf.commitIndex < i) (hk : i ≤ rf.commitIndex + k) (hc : rf.Committable t i) : i ≤ c := by
  induction k with
  | zero => omega
  | succ k ih =>
    rw [newCommitIndex] at h
    obtain ⟨e, he, h⟩ := Option.bind_eq_some_iff.mp h
    have hlast : i = rf.commitIndex + (k + 1) ∨ i ≤ rf.commitIndex + k := by
      push_cast at hk
      omega
    split at h
    · rename_i hterm
      refine ih h (hlast.resolve_left ?_)
      rintro rfl
      rw [Committable, he, Option.map_some, Option.some.injEq] at hc
      exact hterm hc.1
    · split at h
      · cases h
        omega
      · rename_i hrep
        refine ih h (hlast.resolve_left ?_)
        rintro rfl
        exact hrep hc.2

/-- The loop gives the order statistic if its entry is of the term, else what there was. -/
theorem newCommitIndex_eq {m : ℤ} (hb : rf.lastIncludedIndex ≤ rf.commitIndex) (hs : rf.Sorted)
    (hmatch : ∀ j, j ≠ rf.me → rf.matchIndex j ≤ rf.lastLogIndex)
    (hm : kthLargest rf.held (n / 2) = some m) {c : ℤ}
    (h : rf.newCommitIndex rf.currentTerm (rf.lastLogIndex - rf.commitIndex).toNat = some c) :
    c = if rf.commitIndex < m ∧ (rf.entry m).map LogEntry.term = some rf.currentTerm then m
      else rf.commitIndex := by
  have hml := quorum_le hmatch hm
  -- what the loop can take is not above `m`, and then `m` is of the term, too
  have htake {i : ℤ} (hi : rf.commitIndex < i) {e : LogEntry C} (he : rf.entry i = some e)
      (het : e.term = rf.currentTerm) (hrep : n / 2 + 1 ≤ rf.replicated i)
      (hle : i ≤ rf.lastLogIndex) :
      i ≤ m ∧ (rf.entry m).map LogEntry.term = some rf.currentTerm := by
    have him := (quorum_iff hm hle).mpr hrep
    obtain ⟨e', he'⟩ := rf.entry_isSome (i := m) (by omega) hml
    have h1 := hs.mono (by omega) him he he'
    have h2 := hs.le (by omega) he'
    refine ⟨him, ?_⟩
    rw [he', Option.map_some, Option.some.injEq]
    omega
  have hgreatest : rf.commitIndex < m → (rf.entry m).map LogEntry.term = some rf.currentTerm →
      m ≤ c := fun hlt hterm =>
    newCommitIndex_greatest h hlt (by omega) ⟨hterm, (quorum_iff hm hml).mp le_rfl⟩
  obtain rfl | ⟨hlt, ⟨e, he, het⟩, hrep⟩ := newCommitIndex_spec h
  · rw [if_neg]
    rintro ⟨hlt, hterm⟩
    exact absurd (hgreatest hlt hterm) hlt.not_ge
  · obtain ⟨hcm, hterm⟩ := htake hlt he het hrep (bounds_of_entry he).2
    rw [if_pos ⟨hlt.trans_le hcm, hterm⟩]
    exact le_antisymm hcm (hgreatest (hlt.trans_le hcm) hterm)

/-- The loop reads entries of the log only. -/
theorem exists_newCommitIndex (t : ℤ) (hb : rf.lastIncludedIndex ≤ rf.commitIndex) :
    ∃ c, rf.newCommitIndex t (rf.lastLogIndex - rf.commitIndex).toNat = some c := by
  by_cases hlt : rf.commitIndex ≤ rf.lastLogIndex
  · exact newCommitIndex_isSome t hb (by omega)
  · rw [Int.toNat_of_nonpos (by omega)]
    exact ⟨_, rfl⟩

/-- **The commit loop is the quorum rule.** A successful append takes the commit index to the
largest index that a majority holds, if that is further and its entry is of the leader's term;
otherwise no further index can be committed. -/
theorem commit_scan {target : Fin n} {args : AppendEntriesArgs C} {reply : AppendEntriesReply}
    (hlead : rf.currentRole = .leader) (hterm : rf.currentTerm = args.term)
    (hreply : reply.term ≤ args.term) (hsuccess : reply.success = true) (hs : rf.Sorted)
    (hb : rf.lastIncludedIndex ≤ rf.commitIndex)
    (hmatch : ∀ j, j ≠ rf.me → Function.update rf.matchIndex target
      (args.prevLogIndex + args.entries.length) j ≤ rf.lastLogIndex) :
    ∃ rf' m, rf.appendReply target args reply = some rf' ∧
      rf'.matchIndex = Function.update rf.matchIndex target
        (args.prevLogIndex + args.entries.length) ∧
      rf'.log = rf.log ∧ rf'.lastIncludedIndex = rf.lastIncludedIndex ∧
      kthLargest rf'.held (n / 2) = some m ∧
      rf'.commitIndex = (if rf.commitIndex < m ∧
        (rf.entry m).map LogEntry.term = some rf.currentTerm then m else rf.commitIndex) ∧
      rf.commitIndex ≤ rf'.commitIndex ∧
      (rf'.commitIndex = rf.commitIndex ∨ rf'.Committable rf.currentTerm rf'.commitIndex) ∧
      ∀ i, rf.commitIndex < i → rf'.Committable rf.currentTerm i → i ≤ rf'.commitIndex := by
  obtain ⟨rf₁, hrf₁⟩ : ∃ r, r = { rf with
    nextIndex := Function.update rf.nextIndex target
      (args.prevLogIndex + args.entries.length + 1)
    matchIndex := Function.update rf.matchIndex target
      (args.prevLogIndex + args.entries.length) } := ⟨_, rfl⟩
  have hs₁ : rf₁.Sorted := hrf₁ ▸ ⟨hs.mono, hs.le⟩
  have hb₁ : rf₁.lastIncludedIndex ≤ rf₁.commitIndex := hrf₁ ▸ hb
  have hmatch₁ : ∀ j, j ≠ rf₁.me → rf₁.matchIndex j ≤ rf₁.lastLogIndex := hrf₁ ▸ hmatch
  obtain ⟨c, hc⟩ := exists_newCommitIndex rf₁.currentTerm hb₁
  obtain ⟨m, hm⟩ := kthLargest_isSome (s := rf₁.held) (k := n / 2) (by
    have hpos := rf.me.pos
    rw [card_held]
    omega)
  have hrun : rf.appendReply target args reply = some { rf₁ with commitIndex := c } := by
    rw [appendReply, if_neg hreply.not_gt, if_neg (by rw [hterm, hlead]; simp), if_pos hsuccess,
      advance, ← hrf₁, ← hterm]
    have hterm₁ : rf₁.currentTerm = rf.currentTerm := by rw [hrf₁]
    rw [hterm₁] at hc
    rw [hc]
    rfl
  have hcommit := newCommitIndex_eq hb₁ hs₁ hmatch₁ hm hc
  have hspec := newCommitIndex_spec hc
  have hgreatest := fun i => newCommitIndex_greatest (i := i) hc
  subst hrf₁
  refine ⟨_, m, hrun, rfl, rfl, rfl, hm, hcommit, ?_, ?_, fun i hi hcm => hgreatest i hi ?_ hcm⟩
  · obtain h | h := hspec
    · exact h.ge
    · exact h.1.le
  · refine hspec.imp id fun h => ⟨?_, h.2.2⟩
    obtain ⟨e, he, het⟩ := h.2.1
    exact (congrArg (Option.map LogEntry.term) he).trans (congrArg some het)
  · obtain ⟨e, he, -⟩ := Option.map_eq_some_iff.mp hcm.1
    have hle := (bounds_of_entry he).2
    change rf.commitIndex < i at hi
    change i ≤ rf.lastLogIndex at hle
    change i ≤ rf.commitIndex + ((rf.lastLogIndex - rf.commitIndex).toNat : ℤ)
    omega

/-- The leader of term 2, with an entry of term 1 and one of its own. -/
def twoTerms : Raft 3 ℕ Unit :=
  { blank 0 ⟨none, none⟩ with
    currentTerm := 2, currentRole := .leader, log := [⟨0, none⟩, ⟨1, some 7⟩, ⟨2, some 8⟩] }

/-- Peer 1 has stored both entries: they are on two of the three peers. -/
theorem commit_scan_both : ∃ rf' m,
    twoTerms.appendReply 1 ⟨2, 0, 0, 0, [⟨1, some 7⟩, ⟨2, some 8⟩], 0⟩ ⟨2, true, 0, 0, 0⟩ =
      some rf' ∧ kthLargest rf'.held (3 / 2) = some m ∧
      rf'.commitIndex = if 0 < m ∧ (twoTerms.entry m).map LogEntry.term = some 2 then m else 0 := by
  obtain ⟨rf', m, hrun, -, -, -, hm, hcommit, -⟩ :=
    @commit_scan _ _ _ twoTerms 1 ⟨2, 0, 0, 0, [⟨1, some 7⟩, ⟨2, some 8⟩], 0⟩ ⟨2, true, 0, 0, 0⟩
      rfl rfl le_rfl rfl (.of_pairwise (by decide) (by decide)) le_rfl (by decide)
  exact ⟨rf', m, hrun, hm, hcommit⟩

end CollabIde.Raft
