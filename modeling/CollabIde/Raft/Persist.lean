import CollabIde.Raft.Handlers

/-!
# What the persister holds when a peer unlocks

A peer is `Synced` if its persister holds the five fields of its state and its snapshot. Every
handler, every reply and every election keeps a peer synced, with two exceptions
(`persistence_not_behind`): `InstallSnapshot` returns without `persist` when the snapshot is not
newer than the peer's own, although it may have raised the term, and a nil snapshot is not saved, so that
the persister keeps the one before it.
-/

namespace CollabIde

variable {n : ℕ} {C D : Type}

/-- What a peer handles under its lock. -/
inductive Call (n : ℕ) (C D : Type) where
  | requestVote (args : RequestVoteArgs)
  | appendEntries (args : AppendEntriesArgs C)
  | installSnapshot (args : InstallSnapshotArgs D)
  | start (command : Option C)
  | snapshot (index : ℤ) (data : Option D)
  | election
  | voteReply (voteCount : ℕ) (args : RequestVoteArgs) (reply : RequestVoteReply)
  | appendReply (target : Fin n) (args : AppendEntriesArgs C) (reply : AppendEntriesReply)
  | snapshotReply (target : Fin n) (args : InstallSnapshotArgs D) (reply : InstallSnapshotReply)

namespace Raft

variable (rf : Raft n C D)

/-- The state at the unlock. -/
def after : Call n C D → Option (Raft n C D)
  | .requestVote args => (rf.requestVote args).map Prod.fst
  | .appendEntries args => (rf.appendEntries args).map Prod.fst
  | .installSnapshot args => (rf.installSnapshot args).map Prod.fst
  | .start command => some (rf.start command).1
  | .snapshot index data => rf.doSnapshot index data
  | .election => rf.startElectionInt.map Prod.fst
  | .voteReply voteCount args reply => some (rf.voteReply voteCount args reply).1
  | .appendReply target args reply => rf.appendReply target args reply
  | .snapshotReply target args reply => some (rf.snapshotReply target args reply)

/-- The persister holds the peer's fields. -/
structure Synced : Prop where
  raftstate : rf.persister.raftstate = some rf.persistentState
  snapshot : rf.persister.snapshot = rf.snapshot

/-- `Make` with the persister gives the peer's fields. -/
structure Restores : Prop where
  state : (make rf.me rf.persister).persistentState = rf.persistentState
  snapshot : (make rf.me rf.persister).snapshot = rf.snapshot

/-- A snapshot that is not newer than the peer's own raises the term. -/
def LosesTerm : Call n C D → Prop
  | .installSnapshot args =>
    rf.currentTerm < args.term ∧ args.lastIncludedIndex ≤ rf.lastIncludedIndex
  | _ => False

/-- Nil takes the place of a snapshot. -/
def LosesSnapshot : Call n C D → Prop
  | .installSnapshot args =>
    rf.currentTerm ≤ args.term ∧ rf.lastIncludedIndex < args.lastIncludedIndex ∧
      args.data = none ∧ rf.snapshot ≠ none
  | .snapshot index data =>
    rf.lastIncludedIndex < index ∧ rf.logIndex index < rf.log.length ∧
      data = none ∧ rf.snapshot ≠ none
  | _ => False

variable {rf} {rf' : Raft n C D}

theorem Synced.restores (h : rf.Synced) : rf.Restores := by
  constructor
  · simp only [make, h.raftstate, readPersist]
    rfl
  · simp only [make, h.raftstate, readPersist]
    exact h.snapshot

/-! ## `persist` -/

/-- After `persist` a peer is synced if its snapshot is not nil, or there is none to be kept. -/
theorem synced_persist_iff :
    rf.persist.Synced ↔ (rf.snapshot = none → rf.persister.snapshot = none) := by
  constructor
  · intro h hn
    have := h.snapshot
    rw [persist_snapshot_saved, persist_snapshot, hn, Option.none_or] at this
    exact this
  · intro h
    refine ⟨rfl, ?_⟩
    rw [persist_snapshot_saved, persist_snapshot]
    cases hs : rf.snapshot with
    | none => rw [h hs]; rfl
    | some d => rfl

/-- `persist` saves everything when the snapshot has not changed. -/
theorem Synced.persist (h : rf.Synced) (hp : rf'.persister = rf.persister)
    (hs : rf'.snapshot = rf.snapshot) : rf'.persist.Synced :=
  synced_persist_iff.mpr fun hn => by rw [hp, h.snapshot, ← hs, hn]

/-- Other fields do not matter. -/
theorem Synced.congr (h : rf.Synced) (hp : rf'.persister = rf.persister)
    (hst : rf'.persistentState = rf.persistentState) (hs : rf'.snapshot = rf.snapshot) :
    rf'.Synced :=
  ⟨by rw [hp, h.raftstate, hst], by rw [hp, h.snapshot, hs]⟩

/-! ## The handlers -/

namespace Synced

variable (h : rf.Synced)
include h

theorem requestVoteTerm (args : RequestVoteArgs) : (rf.requestVoteTerm args).Synced := by
  unfold Raft.requestVoteTerm
  split
  · exact h.persist rfl rfl
  · exact h

theorem requestVote {args : RequestVoteArgs} {r : Raft n C D × RequestVoteReply}
    (hrun : rf.requestVote args = some r) : r.1.Synced := by
  unfold Raft.requestVote at hrun
  split at hrun
  · cases hrun; exact h
  have h' := h.requestVoteTerm args
  generalize rf.requestVoteTerm args = rf₁ at hrun h'
  unfold requestVoteRest at hrun
  split at hrun
  · obtain ⟨last, -, hrun⟩ := Option.bind_eq_some_iff.mp hrun
    split at hrun
    · cases hrun; exact h'.persist rfl rfl
    · cases hrun; exact h'
  · cases hrun; exact h'

theorem appendEntriesTerm (args : AppendEntriesArgs C) : (rf.appendEntriesTerm args).Synced := by
  unfold Raft.appendEntriesTerm
  split
  · exact h.persist rfl rfl
  · exact h

theorem appendNew {args : AppendEntriesArgs C} (hrun : rf.appendNew args = some rf') :
    rf'.Synced := by
  obtain ⟨kept, -, hrun⟩ := Option.bind_eq_some_iff.mp hrun
  cases hrun
  have hp : ({ rf with log := kept ++ args.entries } : Raft n C D).persist.Synced :=
    h.persist rfl rfl
  exact hp.congr rfl rfl rfl

theorem appendEntries {args : AppendEntriesArgs C} {r : Raft n C D × AppendEntriesReply}
    (hrun : rf.appendEntries args = some r) : r.1.Synced := by
  unfold Raft.appendEntries at hrun
  split at hrun
  · cases hrun; exact h
  have h' : Synced { rf.appendEntriesTerm args with currentRole := .follower } :=
    (h.appendEntriesTerm args).congr rfl rfl rfl
  generalize { rf.appendEntriesTerm args with currentRole := .follower } = rf₁ at hrun h'
  unfold appendEntriesRest at hrun
  split at hrun
  · cases hrun; exact h'
  split at hrun
  · cases hrun; exact h'
  obtain ⟨prev, -, hrun⟩ := Option.bind_eq_some_iff.mp hrun
  split at hrun
  · cases hrun; exact h'
  · obtain ⟨rf₂, hrf₂, hrun⟩ := Option.bind_eq_some_iff.mp hrun
    cases hrun
    exact h'.appendNew hrf₂

theorem start (command : Option C) : (rf.start command).1.Synced := by
  unfold Raft.start
  split
  · exact h
  · exact h.persist rfl rfl

theorem electionIn {term : ℤ} {r : Raft n C D × RequestVoteArgs}
    (hrun : rf.electionIn term = some r) : r.1.Synced := by
  unfold Raft.electionIn at hrun
  split at hrun
  · cases hrun
  obtain ⟨last, -, hrun⟩ := Option.bind_eq_some_iff.mp hrun
  cases hrun
  exact h.persist rfl rfl

theorem stepDown (term : ℤ) : (rf.stepDown term).Synced := h.persist rfl rfl

theorem voteReply (voteCount : ℕ) (args : RequestVoteArgs) (reply : RequestVoteReply) :
    (rf.voteReply voteCount args reply).1.Synced := by
  unfold Raft.voteReply
  split
  · exact h.stepDown _
  split
  · exact h
  generalize (if reply.voteGranted then voteCount + 1 else voteCount) = count
  dsimp only
  split
  · exact h.congr rfl rfl rfl
  · exact h

theorem appendReply {target : Fin n} {args : AppendEntriesArgs C} {reply : AppendEntriesReply}
    (hrun : rf.appendReply target args reply = some rf') : rf'.Synced := by
  unfold Raft.appendReply at hrun
  split at hrun
  · cases hrun; exact h.stepDown _
  split at hrun
  · cases hrun; exact h
  split at hrun
  · obtain ⟨i, -, hrun⟩ := Option.bind_eq_some_iff.mp hrun
    cases hrun
    exact h.congr rfl rfl rfl
  · unfold retreat at hrun
    split at hrun
    · cases hrun; exact h.congr rfl rfl rfl
    · obtain ⟨i, -, hrun⟩ := Option.bind_eq_some_iff.mp hrun
      cases hrun
      exact h.congr rfl rfl rfl

theorem snapshotReply (target : Fin n) (args : InstallSnapshotArgs D)
    (reply : InstallSnapshotReply) : (rf.snapshotReply target args reply).Synced := by
  unfold Raft.snapshotReply
  split
  · exact h.stepDown _
  split
  · exact h
  · exact h.congr rfl rfl rfl

theorem doSnapshot_iff {index : ℤ} {data : Option D} (hrun : rf.doSnapshot index data = some rf') :
    rf'.Synced ↔ ¬ rf.LosesSnapshot (.snapshot index data) := by
  unfold Raft.doSnapshot at hrun
  split at hrun
  · rename_i hskip
    cases hrun
    refine iff_of_true h fun hl => ?_
    rcases hskip with h1 | h1
    · exact absurd hl.1 (not_lt.mpr h1)
    · exact absurd hl.2.1 (not_lt.mpr h1)
  · rename_i hnew
    rw [not_or, not_le, not_le] at hnew
    obtain ⟨e, -, hrun⟩ := Option.bind_eq_some_iff.mp hrun
    obtain ⟨rest, -, hrun⟩ := Option.bind_eq_some_iff.mp hrun
    cases hrun
    rw [synced_persist_iff, LosesSnapshot]
    simp only [h.snapshot, hnew.1, hnew.2, true_and, not_and_not_right]

/-- The one handler that can leave both a term and a snapshot unsaved. -/
theorem installSnapshot_iff {args : InstallSnapshotArgs D} {r : Raft n C D × InstallSnapshotReply}
    (hrun : rf.installSnapshot args = some r) : r.1.Synced ↔
      ¬ rf.LosesTerm (.installSnapshot args) ∧ ¬ rf.LosesSnapshot (.installSnapshot args) := by
  unfold Raft.installSnapshot at hrun
  simp only [LosesTerm, LosesSnapshot]
  split at hrun
  · rename_i hold
    cases hrun
    exact iff_of_true h ⟨fun hl => by omega, fun hl => by omega⟩
  rename_i hterm
  split at hrun
  · rename_i hstale
    cases hrun
    constructor
    · intro hs
      refine ⟨fun hl => ?_, fun hl => absurd hl.2.1 (not_lt.mpr hstale)⟩
      -- the term that the persister holds is the one before the request
      have hst : some rf.persistentState = some (rf.installSnapshotTerm args).persistentState :=
        h.raftstate.symm.trans hs.raftstate
      have := congrArg PersistentState.currentTerm (Option.some.inj hst)
      simp only [persistentState, installSnapshotTerm, if_pos hl.1] at this
      omega
    · intro hl
      refine h.congr rfl ?_ rfl
      simp only [persistentState, installSnapshotTerm]
      rw [if_neg fun hlt => hl.1 ⟨hlt, hstale⟩]
  · rename_i hnew
    obtain ⟨rf₁, hrf₁, rfl⟩ := Option.map_eq_some_iff.mp hrun
    obtain ⟨rest, -, rfl⟩ := Option.map_eq_some_iff.mp hrf₁
    rw [synced_persist_iff]
    have hp : (rf.installSnapshotTerm args).persister = rf.persister := rfl
    simp only [hp, h.snapshot, not_lt.mp hterm, not_le.mp hnew, hnew, and_false, not_false_eq_true,
      true_and, not_and_not_right]

end Synced

/-- **Persistence is not behind**, unless the call loses the term or the snapshot. -/
theorem persistence_not_behind {c : Call n C D} (h : rf.Synced) (hrun : rf.after c = some rf') :
    rf'.Synced ∧ rf'.Restores ↔ ¬ rf.LosesTerm c ∧ ¬ rf.LosesSnapshot c := by
  suffices rf'.Synced ↔ ¬ rf.LosesTerm c ∧ ¬ rf.LosesSnapshot c from
    ⟨fun hs => this.mp hs.1, fun hl => ⟨this.mpr hl, (this.mpr hl).restores⟩⟩
  have hkeep : rf'.Synced → (rf'.Synced ↔ ¬ False ∧ ¬ False) := fun hs =>
    iff_of_true hs ⟨not_false, not_false⟩
  cases c with
  | requestVote args =>
    obtain ⟨r, hr, rfl⟩ := Option.map_eq_some_iff.mp hrun
    exact hkeep (h.requestVote hr)
  | appendEntries args =>
    obtain ⟨r, hr, rfl⟩ := Option.map_eq_some_iff.mp hrun
    exact hkeep (h.appendEntries hr)
  | installSnapshot args =>
    obtain ⟨r, hr, rfl⟩ := Option.map_eq_some_iff.mp hrun
    exact h.installSnapshot_iff hr
  | start command => cases hrun; exact hkeep (h.start command)
  | snapshot index data => exact (h.doSnapshot_iff hrun).trans (by simp [LosesTerm])
  | election =>
    obtain ⟨r, hr, rfl⟩ := Option.map_eq_some_iff.mp hrun
    exact hkeep (h.electionIn hr)
  | voteReply voteCount args reply => cases hrun; exact hkeep (h.voteReply voteCount args reply)
  | appendReply target args reply => exact hkeep (h.appendReply hrun)
  | snapshotReply target args reply => cases hrun; exact hkeep (h.snapshotReply target args reply)

/-- A peer of term 1 with a snapshot of index 1, all of it saved. -/
def trimmedPeer : Raft 3 ℕ Unit :=
  { blank 1 ⟨none, none⟩ with
    currentTerm := 1, log := [⟨1, none⟩], commitIndex := 1, lastApplied := 1
    lastIncludedIndex := 1, lastIncludedTerm := 1, snapshot := some () }.persist

/-- The vote of a later term is saved before the reply leaves. -/
theorem persistence_not_behind_vote : ∃ rf',
    trimmedPeer.after (.requestVote ⟨2, 0, 1, 1⟩) = some rf' ∧ rf'.votedFor = 0 ∧
      rf'.Synced ∧ rf'.Restores :=
  ⟨_, rfl, rfl, (@persistence_not_behind _ _ _ trimmedPeer _ (.requestVote ⟨2, 0, 1, 1⟩)
    ⟨rfl, rfl⟩ rfl).mpr ⟨not_false, not_false⟩⟩

/-- The snapshot that the peer has already, sent by the leader of term 2. -/
theorem persistence_behind : ¬ ∀ (rf rf' : Raft 3 ℕ Unit) (c : Call 3 ℕ Unit), rf.Synced →
    rf.after c = some rf' → rf'.Synced ∧ rf'.Restores := by
  intro h
  have hs := (h trimmedPeer _ (.installSnapshot ⟨2, 0, 1, 1, some ()⟩) ⟨rfl, rfl⟩ rfl).1.raftstate
  exact absurd hs (by decide)

end Raft

end CollabIde
