import CollabIde.Raft.Cluster
import CollabIde.Raft.Log

/-!
# A log as long as what is committed

`Raft.HoldsCommitted`: the snapshot is of committed entries, and the log reaches to the commit
index. A peer with such a log uses no index outside it, but for the heartbeats of a leader
(`Bounds.lean`), and its own calls keep such a log. A request keeps it if and only if it neither
cuts the log before the commit index nor brings a snapshot before it that the log does not match
(`HoldsCommitted.serve_iff`).
-/

namespace CollabIde.Raft

variable {n : ℕ} {C D : Type} {rf rf' : Raft n C D}

/-! ## What the handlers do -/

/-- The new entries and the new commit index, if `AppendEntries` changes the log. -/
theorem appendEntries_cases {args : AppendEntriesArgs C} {reply : AppendEntriesReply}
    (h : rf.appendEntries args = some (rf', reply)) :
    rf'.lastIncludedIndex = rf.lastIncludedIndex ∧ rf'.snapshot = rf.snapshot ∧
      rf'.lastApplied = rf.lastApplied ∧
      (rf'.log = rf.log ∧ rf'.commitIndex = rf.commitIndex ∨
        rf.Accepts args ∧ rf'.lastLogIndex = args.prevLogIndex + args.entries.length ∧
          rf'.commitIndex = if rf.commitIndex < args.leaderCommit then
            if args.leaderCommit < rf'.lastLogIndex then args.leaderCommit else rf'.lastLogIndex
          else rf.commitIndex) := by
  unfold appendEntries at h
  split at h
  · cases h
    exact ⟨rfl, rfl, rfl, .inl ⟨rfl, rfl⟩⟩
  rename_i hterm
  have hsame : (rf.appendEntriesTerm args).log = rf.log ∧
      (rf.appendEntriesTerm args).lastIncludedIndex = rf.lastIncludedIndex ∧
      (rf.appendEntriesTerm args).snapshot = rf.snapshot ∧
      (rf.appendEntriesTerm args).lastApplied = rf.lastApplied ∧
      (rf.appendEntriesTerm args).commitIndex = rf.commitIndex := by
    unfold appendEntriesTerm
    split <;> exact ⟨rfl, rfl, rfl, rfl, rfl⟩
  generalize hrf₁ : { rf.appendEntriesTerm args with currentRole := .follower } = rf₁ at h
  have h₁ : rf₁.log = rf.log ∧ rf₁.lastIncludedIndex = rf.lastIncludedIndex ∧
      rf₁.snapshot = rf.snapshot ∧ rf₁.lastApplied = rf.lastApplied ∧
      rf₁.commitIndex = rf.commitIndex := by
    rw [← hrf₁]
    exact hsame
  obtain ⟨hlog, hbase, hsnapshot, happlied, hcommit⟩ := h₁
  unfold appendEntriesRest at h
  split at h
  · cases h
    exact ⟨hbase, hsnapshot, happlied, .inl ⟨hlog, hcommit⟩⟩
  rename_i hlast
  split at h
  · cases h
    exact ⟨hbase, hsnapshot, happlied, .inl ⟨hlog, hcommit⟩⟩
  rename_i hprev
  obtain ⟨e, he, h⟩ := Option.bind_eq_some_iff.mp h
  split at h
  · cases h
    exact ⟨hbase, hsnapshot, happlied, .inl ⟨hlog, hcommit⟩⟩
  rename_i hmatch
  obtain ⟨rf₂, h₂, h⟩ := Option.bind_eq_some_iff.mp h
  cases h
  obtain ⟨kept, hkept, h₂⟩ := Option.bind_eq_some_iff.mp h₂
  cases h₂
  refine ⟨hbase, hsnapshot, happlied, .inr ⟨⟨not_lt.mp hterm, ?_, ?_, ?_⟩, ?_, ?_⟩⟩
  · rw [← hbase]
    exact not_lt.mp hprev
  · rw [lastLogIndex, hlog, hbase] at hlast
    exact not_lt.mp hlast
  · rw [entry, logIndex, hlog, hbase] at he
    rw [entry, logIndex, he, Option.map_some, not_not.mp hmatch]
  · have hlen := slice_length hkept
    rw [logIndex] at hlen
    simp only [lastLogIndex, persist_log, persist_lastIncludedIndex, List.length_append] at *
    omega
  · rw [← hcommit]
    rfl

/-- A new snapshot; if the log has its last entry, what is behind it is kept. -/
theorem installSnapshot_cases {args : InstallSnapshotArgs D} {reply : InstallSnapshotReply}
    (h : rf.installSnapshot args = some (rf', reply)) :
    rf'.lastApplied = rf.lastApplied ∧
      (rf'.log = rf.log ∧ rf'.lastIncludedIndex = rf.lastIncludedIndex ∧
          rf'.snapshot = rf.snapshot ∧ rf'.commitIndex = rf.commitIndex ∨
        (rf.currentTerm ≤ args.term ∧ rf.lastIncludedIndex < args.lastIncludedIndex) ∧
          rf'.lastIncludedIndex = args.lastIncludedIndex ∧ rf'.snapshot = args.data ∧
          rf'.commitIndex = max rf.commitIndex args.lastIncludedIndex ∧
          ((∃ e, rf.entry args.lastIncludedIndex = some e ∧ e.term = args.lastIncludedTerm) ∧
              rf'.lastLogIndex = rf.lastLogIndex ∧
              (∀ i, args.lastIncludedIndex < i → rf'.entry i = rf.entry i) ∨
            (∀ e, rf.entry args.lastIncludedIndex = some e → e.term ≠ args.lastIncludedTerm) ∧
              rf'.lastLogIndex = args.lastIncludedIndex)) := by
  unfold installSnapshot at h
  split at h
  · cases h
    exact ⟨rfl, .inl ⟨rfl, rfl, rfl, rfl⟩⟩
  rename_i hterm
  split at h
  · cases h
    exact ⟨rfl, .inl ⟨rfl, rfl, rfl, rfl⟩⟩
  rename_i hnew
  obtain ⟨rf₁, h₁, h⟩ := Option.map_eq_some_iff.mp h
  cases h
  obtain ⟨rest, hrest, rfl⟩ := Option.map_eq_some_iff.mp h₁
  refine ⟨rfl, .inr ⟨⟨not_lt.mp hterm, not_le.mp hnew⟩, rfl, rfl, ?_, ?_⟩⟩
  · rw [persist_commitIndex]
    by_cases hlt : rf.commitIndex < args.lastIncludedIndex
    · rw [max_eq_right hlt.le]
      exact if_pos hlt
    · rw [max_eq_left (not_lt.mp hlt)]
      exact if_neg hlt
  · obtain ⟨keep, hkeep, hrest⟩ := Option.bind_eq_some_iff.mp hrest
    by_cases hhas : ∃ e, rf.entry args.lastIncludedIndex = some e ∧ e.term = args.lastIncludedTerm
    · refine .inl ⟨hhas, ?_⟩
      obtain ⟨e, he, hmatch⟩ := hhas
      have hle : args.lastIncludedIndex ≤ rf.lastLogIndex := (bounds_of_entry he).2
      -- the log has the snapshot's last entry
      have hkept : keep = true := by
        unfold hasSnapshot at hkeep
        rw [if_pos (by exact hle)] at hkeep
        obtain ⟨e', he', rfl⟩ := Option.map_eq_some_iff.mp hkeep
        cases he.symm.trans he'
        exact decide_eq_true hmatch
      rw [if_pos hkept] at hrest
      have hlen := slice_length hrest
      refine ⟨?_, fun i hi => entry_kept rf hrest rfl rfl hi⟩
      simp only [lastLogIndex, logIndex, installSnapshotTerm, persist_log,
        persist_lastIncludedIndex, List.length_cons] at hlen ⊢
      push_cast
      omega
    · have hnone : ∀ e, rf.entry args.lastIncludedIndex = some e → e.term ≠ args.lastIncludedTerm :=
        fun e he hmatch => hhas ⟨e, he, hmatch⟩
      refine .inr ⟨hnone, ?_⟩
      have hdrop : keep = false := by
        unfold hasSnapshot at hkeep
        split at hkeep
        · obtain ⟨e', he', rfl⟩ := Option.map_eq_some_iff.mp hkeep
          exact decide_eq_false (hnone e' he')
        · cases hkeep
          rfl
      rw [hdrop] at hrest
      cases hrest
      simp only [lastLogIndex, persist_log, persist_lastIncludedIndex, List.length_singleton]
      omega

/-- A snapshot of the service trims the log. -/
theorem doSnapshot_cases {index : ℤ} {data : Option D} (h : rf.doSnapshot index data = some rf') :
    rf' = rf ∧ (index ≤ rf.lastIncludedIndex ∨ rf.lastLogIndex < index) ∨
      rf.lastIncludedIndex < index ∧ rf'.lastIncludedIndex = index ∧ rf'.snapshot = data ∧
        rf'.commitIndex = rf.commitIndex ∧ rf'.lastApplied = rf.lastApplied ∧
        ∀ i, index < i → rf'.entry i = rf.entry i := by
  unfold doSnapshot at h
  split at h
  · rename_i hout
    cases h
    refine .inl ⟨rfl, hout.imp_right fun hlen => ?_⟩
    unfold logIndex at hlen
    unfold lastLogIndex
    omega
  · rename_i hin
    obtain ⟨e, he, h⟩ := Option.bind_eq_some_iff.mp h
    obtain ⟨rest, hrest, h⟩ := Option.bind_eq_some_iff.mp h
    cases h
    exact .inr ⟨not_le.mp (not_or.mp hin).1, rfl, rfl, rfl, rfl,
      fun i hi => entry_kept rf hrest rfl rfl hi⟩

/-- The applier takes the snapshot first, else what is committed and not applied. -/
theorem applier_cases {out : List (Outgoing C)} (h : rf.applier = some (rf', out)) :
    rf.lastApplied < rf.lastIncludedIndex ∧
        rf' = { rf with lastApplied := rf.lastIncludedIndex } ∧ out = [.snapshot] ∨
      rf.lastIncludedIndex ≤ rf.lastApplied ∧ rf.lastApplied < rf.commitIndex ∧
        rf' = { rf with lastApplied := rf.commitIndex } ∧
        (∃ es, slice rf.log (rf.logIndex (rf.lastApplied + 1)) (rf.logIndex rf.commitIndex + 1) =
          some es ∧ out = es.mapIdx fun i e => .command e.command (rf.lastApplied + 1 + i)) ∨
      rf' = rf ∧ out = [] := by
  unfold applier at h
  split at h
  · rename_i hlt
    cases h
    exact .inl ⟨hlt, rfl, rfl⟩
  rename_i hle
  split at h
  · rename_i hlt
    obtain ⟨es, hes, h⟩ := Option.bind_eq_some_iff.mp h
    cases h
    exact .inr (.inl ⟨not_lt.mp hle, hlt, rfl, es, hes, rfl⟩)
  · cases h
    exact .inr (.inr ⟨rfl, rfl⟩)
theorem lastXTermIndex_isSome (t : ℤ) {k : ℕ} (hk : k ≤ rf.log.length) :
    ∃ i, rf.lastXTermIndex t k = some i := by
  induction k with
  | zero => exact ⟨-1, rfl⟩
  | succ k ih =>
    obtain ⟨e, he⟩ := rf.entry_isSome (i := rf.lastIncludedIndex + k) (by omega)
      (by unfold lastLogIndex; omega)
    rw [lastXTermIndex, he, Option.bind_eq_bind, Option.bind_some]
    split
    · exact ⟨_, rfl⟩
    · exact ih (by omega)

theorem newCommitIndex_isSome (t : ℤ) {k : ℕ} (hb : rf.lastIncludedIndex ≤ rf.commitIndex)
    (hk : rf.commitIndex + k ≤ rf.lastLogIndex) : ∃ i, rf.newCommitIndex t k = some i := by
  induction k with
  | zero => exact ⟨_, rfl⟩
  | succ k ih =>
    obtain ⟨e, he⟩ := rf.entry_isSome (i := rf.commitIndex + (k + 1)) (by omega)
      (by push_cast at hk; omega)
    rw [newCommitIndex, he, Option.bind_eq_bind, Option.bind_some]
    have hih := ih (by push_cast at hk; omega)
    split
    · exact hih
    · split
      · exact ⟨_, rfl⟩
      · exact hih

/-- The commit loop returns the old commit index or a later one of the given term that enough
peers have stored. -/
theorem newCommitIndex_spec {t i : ℤ} {k : ℕ} (h : rf.newCommitIndex t k = some i) :
    i = rf.commitIndex ∨ rf.commitIndex < i ∧ (∃ e, rf.entry i = some e ∧ e.term = t) ∧
      n / 2 + 1 ≤ rf.replicated i := by
  induction k with
  | zero => exact .inl (by simpa [newCommitIndex] using h.symm)
  | succ k ih =>
    rw [newCommitIndex] at h
    obtain ⟨e, he, h⟩ := Option.bind_eq_some_iff.mp h
    split at h
    · exact ih h
    · split at h
      · rw [Option.some.injEq] at h
        subst h
        exact .inr ⟨by omega, ⟨e, he, not_not.mp ‹_›⟩, ‹_›⟩
      · exact ih h

/-! ## A log as long as what is committed -/

/-- The snapshot is of committed entries, and the log has the rest of them. -/
structure HoldsCommitted (rf : Raft n C D) : Prop where
  base : rf.lastIncludedIndex ≤ rf.commitIndex
  commit : rf.commitIndex ≤ rf.lastLogIndex

theorem appendEntries_ne_none (args : AppendEntriesArgs C) : rf.appendEntries args ≠ none := by
  unfold Raft.appendEntries
  split
  · simp
  generalize hrf : ({ rf.appendEntriesTerm args with currentRole := .follower } : Raft n C D) = rf₁
  unfold appendEntriesRest
  split
  · simp
  split
  · simp
  rename_i h1 h2
  obtain ⟨e, he⟩ := rf₁.entry_isSome (not_lt.mp h2) (not_lt.mp h1)
  obtain ⟨es, hes⟩ := rf₁.entriesTo_isSome (not_lt.mp h2) (not_lt.mp h1)
  rw [he, Option.bind_eq_bind, Option.bind_some]
  split
  · simp
  · simp [appendNew, hes]

theorem installSnapshot_ne_none (args : InstallSnapshotArgs D) : rf.installSnapshot args ≠ none := by
  unfold Raft.installSnapshot
  split
  · simp
  split
  · simp
  rename_i h1
  have hlii : (rf.installSnapshotTerm args).lastIncludedIndex ≤ args.lastIncludedIndex :=
    (not_le.mp h1).le
  generalize rf.installSnapshotTerm args = rf₁ at hlii
  rw [ne_eq, Option.map_eq_none_iff, installNew, Option.map_eq_none_iff, afterSnapshot, hasSnapshot]
  split
  · rename_i h2
    obtain ⟨e, he⟩ := rf₁.entry_isSome hlii h2
    obtain ⟨es, hes⟩ := rf₁.entriesFrom_isSome (i := args.lastIncludedIndex + 1) (by omega)
      (by omega)
    rw [he, Option.map_some, Option.bind_eq_bind, Option.bind_some, hes]
    split <;> simp
  · simp

theorem doSnapshot_ne_none (index : ℤ) (data : Option D) : rf.doSnapshot index data ≠ none := by
  unfold Raft.doSnapshot
  split
  · simp
  rename_i h1
  rw [not_or, not_le, not_le] at h1
  unfold logIndex at h1
  obtain ⟨e, he⟩ := rf.entry_isSome (i := index) (by omega) (by unfold lastLogIndex; omega)
  obtain ⟨es, hes⟩ := rf.entriesFrom_isSome (i := index + 1) (by omega)
    (by unfold lastLogIndex; omega)
  simp [he, hes]

/-- The log and the indices that bound it stay. -/
structure SameBounds (rf rf' : Raft n C D) : Prop where
  log : rf'.log = rf.log
  base : rf'.lastIncludedIndex = rf.lastIncludedIndex
  commit : rf'.commitIndex = rf.commitIndex

theorem SameBounds.refl (rf : Raft n C D) : SameBounds rf rf := ⟨rfl, rfl, rfl⟩

theorem requestVoteTerm_sameBounds (rf : Raft n C D) (args : RequestVoteArgs) :
    SameBounds rf (rf.requestVoteTerm args) := by
  unfold requestVoteTerm
  split <;> exact ⟨rfl, rfl, rfl⟩

theorem requestVote_sameBounds {args : RequestVoteArgs} {reply : RequestVoteReply}
    (h : rf.requestVote args = some (rf', reply)) : SameBounds rf rf' := by
  have hterm := requestVoteTerm_sameBounds rf args
  unfold requestVote at h
  split at h
  · cases h
    exact .refl rf
  unfold requestVoteRest at h
  split at h
  · obtain ⟨e, -, h⟩ := Option.bind_eq_some_iff.mp h
    split at h <;> cases h
    · exact ⟨hterm.log, hterm.base, hterm.commit⟩
    · exact hterm
  · cases h
    exact hterm

theorem voteReply_sameBounds (count : ℕ) (args : RequestVoteArgs) (reply : RequestVoteReply) :
    SameBounds rf (rf.voteReply count args reply).1 := by
  unfold voteReply
  split
  · exact ⟨rfl, rfl, rfl⟩
  split
  · exact .refl rf
  generalize (if reply.voteGranted = true then count + 1 else count) = count'
  dsimp only
  split
  · exact ⟨rfl, rfl, rfl⟩
  · exact .refl rf

theorem snapshotReply_sameBounds (target : Fin n) (args : InstallSnapshotArgs D)
    (reply : InstallSnapshotReply) : SameBounds rf (rf.snapshotReply target args reply) := by
  unfold snapshotReply
  split
  · exact ⟨rfl, rfl, rfl⟩
  split
  · exact .refl rf
  · exact ⟨rfl, rfl, rfl⟩

/-- After this request the log still has what is committed: an append does not end before the
commit index, unless it moves it, and a snapshot behind the commit index matches the log. -/
def KeepsCommitted (rf : Raft n C D) : Rpc C D → Prop
  | .vote _ _ => True
  | .append args => rf.Accepts args →
    rf.commitIndex ≤ args.prevLogIndex + args.entries.length ∨ rf.commitIndex < args.leaderCommit
  | .snapshot args => rf.currentTerm ≤ args.term ∧ rf.lastIncludedIndex < args.lastIncludedIndex ∧
      args.lastIncludedIndex < rf.commitIndex →
    (rf.entry args.lastIncludedIndex).map LogEntry.term = some args.lastIncludedTerm

instance (rf : Raft n C D) : (r : Rpc C D) → Decidable (rf.KeepsCommitted r)
  | .vote _ _ => .isTrue trivial
  | .append _ | .snapshot _ => inferInstanceAs (Decidable (_ → _))

namespace HoldsCommitted

/-- `Make`, from a log that has at least its first entry. -/
theorem make (me : Fin n) {persister : Persister C D}
    (hlog : ∀ st ∈ persister.raftstate, st.log ≠ []) : (Raft.make me persister).HoldsCommitted := by
  refine ⟨le_rfl, ?_⟩
  suffices 0 < (Raft.make me persister).log.length by
    change (Raft.make me persister).lastIncludedIndex ≤ _
    unfold lastLogIndex
    omega
  unfold Raft.make readPersist
  cases hst : persister.raftstate with
  | none => exact Nat.one_pos
  | some st => exact List.length_pos_iff.mpr (hlog st hst)

variable (h : rf.HoldsCommitted)
include h

theorem last : rf.lastIncludedIndex ≤ rf.lastLogIndex := h.base.trans h.commit

theorem of_sameBounds (hs : SameBounds rf rf') : rf'.HoldsCommitted := by
  obtain ⟨hbase, hcommit⟩ := h
  unfold lastLogIndex at hcommit
  refine ⟨by rw [hs.base, hs.commit]; exact hbase, ?_⟩
  unfold lastLogIndex
  rw [hs.log, hs.base, hs.commit]
  exact hcommit

/-! ### No index outside the log -/

theorem requestVote (args : RequestVoteArgs) : rf.requestVote args ≠ none := by
  obtain ⟨e, he⟩ := entry_isSome (h.of_sameBounds (requestVoteTerm_sameBounds rf args)).last le_rfl
  unfold Raft.requestVote
  split
  · simp
  · rw [requestVoteRest, he, Option.bind_eq_bind, Option.bind_some]
    split
    · split <;> simp
    · simp

theorem serve (r : Rpc C D) : rf.serve r ≠ none := by
  intro hnone
  cases r with
  | vote e args => exact h.requestVote args (Option.map_eq_none_iff.mp hnone)
  | append args => exact appendEntries_ne_none args (Option.map_eq_none_iff.mp hnone)
  | snapshot args => exact installSnapshot_ne_none args (Option.map_eq_none_iff.mp hnone)

theorem electionIn (term : ℤ) (hr : rf.currentRole ≠ .leader) : rf.electionIn term ≠ none := by
  obtain ⟨e, he⟩ : ∃ e, ({ rf with
      currentRole := .candidate, currentTerm := term, votedFor := rf.me } : Raft n C D).persist.entry
        rf.lastLogIndex = some e := Raft.entry_isSome h.last le_rfl
  rw [Raft.electionIn, if_neg hr]
  intro hn
  rcases Option.bind_eq_none_iff.mp hn e he with h1
  cases h1

theorem appendReply (target : Fin n) (args : AppendEntriesArgs C) (reply : AppendEntriesReply) :
    rf.appendReply target args reply ≠ none := by
  unfold Raft.appendReply
  split
  · simp
  split
  · simp
  split
  · unfold advance
    obtain ⟨i, hi⟩ : ∃ i, ({ rf with
        nextIndex := Function.update rf.nextIndex target
          (args.prevLogIndex + args.entries.length + 1)
        matchIndex := Function.update rf.matchIndex target
          (args.prevLogIndex + args.entries.length) } : Raft n C D).newCommitIndex args.term
          (rf.lastLogIndex - rf.commitIndex).toNat = some i :=
      Raft.newCommitIndex_isSome args.term h.base (by
        have := h.commit
        simp only [lastLogIndex] at this ⊢
        omega)
    intro hn
    have := Option.bind_eq_none_iff.mp hn i hi
    cases this
  · unfold retreat
    split
    · simp
    · obtain ⟨i, hi⟩ := rf.lastXTermIndex_isSome reply.xTerm le_rfl
      rw [hi]
      simp

theorem applier : rf.applier ≠ none := by
  unfold Raft.applier
  split
  · simp
  split
  · have hc := h.commit
    have hb := h.base
    unfold lastLogIndex at hc
    obtain ⟨es, hes⟩ : ∃ es, slice rf.log (rf.logIndex (rf.lastApplied + 1))
        (rf.logIndex rf.commitIndex + 1) = some es :=
      slice_isSome (by unfold logIndex; omega) (by unfold logIndex; omega)
        (by unfold logIndex; omega)
    rw [hes]
    simp
  · simp

/-! ### What keeps such a log -/

theorem after_serve {r : Rpc C D} {answer : Answer C D} (hk : rf.KeepsCommitted r)
    (hrun : rf.serve r = some (rf', answer)) : rf'.HoldsCommitted := by
  have hbase := h.base
  have hcommit := h.commit
  cases r with
  | vote e args =>
    obtain ⟨⟨_, _⟩, hx, hout⟩ := Option.map_eq_some_iff.mp hrun
    cases hout
    exact h.of_sameBounds (requestVote_sameBounds hx)
  | append args =>
    obtain ⟨⟨_, _⟩, hx, hout⟩ := Option.map_eq_some_iff.mp hrun
    cases hout
    obtain ⟨hb, -, -, ⟨hlog, hc⟩ | ⟨haccept, hlast, hc⟩⟩ := appendEntries_cases hx
    · exact h.of_sameBounds ⟨hlog, hb, hc⟩
    · have hprev := haccept.2.1
      dsimp only at hb hc hlast ⊢
      constructor
      · rw [hb, hc]
        split
        · split <;> omega
        · exact hbase
      · rw [hc]
        split
        · split <;> omega
        · rw [hlast]
          exact (hk haccept).resolve_right ‹_›
  | snapshot args =>
    obtain ⟨⟨_, _⟩, hx, hout⟩ := Option.map_eq_some_iff.mp hrun
    cases hout
    obtain ⟨-, ⟨hlog, hb, -, hc⟩ | ⟨⟨hterm, hlt⟩, hb, -, hc, hcases⟩⟩ := installSnapshot_cases hx
    · exact h.of_sameBounds ⟨hlog, hb, hc⟩
    · refine ⟨by rw [hb, hc]; exact le_max_right _ _, ?_⟩
      rw [hc]
      obtain ⟨⟨e, he, -⟩, hlast, -⟩ | ⟨hnone, hlast⟩ := hcases
      · rw [hlast]
        exact max_le hcommit (bounds_of_entry he).2
      · -- a log that does not match ends at the snapshot, which is not before the commit index
        rw [hlast]
        refine max_le (not_lt.mp fun hbehind => ?_) le_rfl
        obtain ⟨e, he, hmatch⟩ := Option.map_eq_some_iff.mp (hk ⟨hterm, hlt, hbehind⟩)
        exact hnone e he hmatch

theorem after_electionIn {term : ℤ} {args : RequestVoteArgs}
    (hrun : rf.electionIn term = some (rf', args)) : rf'.HoldsCommitted := by
  unfold Raft.electionIn at hrun
  split at hrun
  · cases hrun
  · obtain ⟨e, -, hrun⟩ := Option.bind_eq_some_iff.mp hrun
    cases hrun
    exact h.of_sameBounds ⟨rfl, rfl, rfl⟩

theorem after_start (command : Option C) : (rf.start command).1.HoldsCommitted := by
  unfold Raft.start
  split
  · exact h
  · refine ⟨h.base, ?_⟩
    have hcommit := h.commit
    simp only [lastLogIndex, persist_log, persist_lastIncludedIndex, persist_commitIndex,
      List.length_append, List.length_singleton] at hcommit ⊢
    push_cast
    omega

theorem after_appendReply {target : Fin n} {args : AppendEntriesArgs C}
    {reply : AppendEntriesReply} (hrun : rf.appendReply target args reply = some rf') :
    rf'.HoldsCommitted := by
  unfold Raft.appendReply at hrun
  split at hrun
  · cases hrun
    exact h.of_sameBounds ⟨rfl, rfl, rfl⟩
  split at hrun
  · cases hrun
    exact h
  split at hrun
  · obtain ⟨i, hi, hrun⟩ := Option.bind_eq_some_iff.mp hrun
    cases hrun
    obtain hi | ⟨hlt, ⟨e, he, -⟩, -⟩ := newCommitIndex_spec hi
    · exact h.of_sameBounds ⟨rfl, rfl, hi⟩
    · exact ⟨h.base.trans hlt.le, (bounds_of_entry he).2⟩
  · unfold retreat at hrun
    split at hrun
    · cases hrun
      exact h.of_sameBounds ⟨rfl, rfl, rfl⟩
    · obtain ⟨i, -, hrun⟩ := Option.bind_eq_some_iff.mp hrun
      cases hrun
      exact h.of_sameBounds ⟨rfl, rfl, rfl⟩

theorem after_applier {out : List (Outgoing C)} (hrun : rf.applier = some (rf', out)) :
    rf'.HoldsCommitted := by
  obtain ⟨-, rfl, -⟩ | ⟨-, -, rfl, -⟩ | ⟨rfl, -⟩ := applier_cases hrun
  · exact h.of_sameBounds ⟨rfl, rfl, rfl⟩
  · exact h.of_sameBounds ⟨rfl, rfl, rfl⟩
  · exact h

end HoldsCommitted

end CollabIde.Raft
