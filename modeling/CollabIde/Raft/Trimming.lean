import CollabIde.Raft.CommitRule
import CollabIde.Raft.Persist
import CollabIde.Raft.Trim

/-!
# Trimming is invisible to the protocol

Two peers handle the same calls. One keeps its whole log; the other one takes snapshots in between,
of any index, and gets snapshots of entries that it has. Their logs are one history, trimmed at 0
and at the second peer's snapshot (`Alike`); each call keeps this, so that both peers give the same
votes, take the same appends and start commands at the same indices (`trimming_invisible`).

Only the commit loop of a leader looks below its snapshot, if it took one above its commit index.
-/

namespace CollabIde.Raft

variable {n : ℕ} {C D : Type}

/-! ## Two peers with one history -/

/-- What a call returns. A failed append has no hint here: its bounds are those of the log. -/
inductive Outcome where
  | vote (reply : RequestVoteReply)
  | append (term : ℤ) (success : Bool)
  | install (reply : InstallSnapshotReply)
  | start (index term : ℤ) (isLeader : Bool)
  | election (args : RequestVoteArgs)
  | count (voteCount : ℕ) (elected : Bool)
  | done

def outcome (rf : Raft n C D) : Call n C D → Option Outcome
  | .requestVote args => (rf.requestVote args).map fun r => .vote r.2
  | .appendEntries args => (rf.appendEntries args).map fun r => .append r.2.term r.2.success
  | .installSnapshot args => (rf.installSnapshot args).map fun r => .install r.2
  | .start command => some (.start (rf.start command).2.1 (rf.start command).2.2.1
      (rf.start command).2.2.2)
  | .snapshot index data => (rf.doSnapshot index data).map fun _ => .done
  | .election => rf.startElectionInt.map fun r => .election r.2
  | .voteReply voteCount args reply => some (.count (rf.voteReply voteCount args reply).2.1
      (rf.voteReply voteCount args reply).2.2)
  | .appendReply target args reply => (rf.appendReply target args reply).map fun _ => .done
  | .snapshotReply _ _ _ => some .done

/-- `u` keeps the whole history `h`, and `t` keeps it trimmed at `b`. -/
structure Alike (u t : Raft n C D) (h : List (LogEntry C)) (b : ℕ) : Prop where
  whole : u.Keeps h 0
  trimmed : t.Keeps h b
  me : t.me = u.me
  currentTerm : t.currentTerm = u.currentTerm
  votedFor : t.votedFor = u.votedFor
  currentRole : t.currentRole = u.currentRole

/-- What the protocol sees of two peers: their logs agree above the snapshot of `t`, and on the
term of its last entry. -/
structure SameProtocol (u t : Raft n C D) : Prop where
  currentTerm : t.currentTerm = u.currentTerm
  votedFor : t.votedFor = u.votedFor
  currentRole : t.currentRole = u.currentRole
  lastLogIndex : t.lastLogIndex = u.lastLogIndex
  entry : ∀ i, t.lastIncludedIndex < i → t.entry i = u.entry i
  term : (t.entry t.lastIncludedIndex).map LogEntry.term = some t.lastIncludedTerm
  wholeTerm : (u.entry t.lastIncludedIndex).map LogEntry.term = some t.lastIncludedTerm

variable {u t u' t' : Raft n C D} {h : List (LogEntry C)} {b i : ℕ}

/-- The fields that an index or a commit index is not part of. -/
theorem Keeps.congr {rf rf' : Raft n C D} (hk : rf.Keeps h b) (hlog : rf'.log = rf.log)
    (hindex : rf'.lastIncludedIndex = rf.lastIncludedIndex)
    (hterm : rf'.lastIncludedTerm = rf.lastIncludedTerm) : rf'.Keeps h b :=
  ⟨hlog.trans hk.log, hindex.trans hk.index, hterm.trans hk.term, hk.le⟩

namespace Alike

variable (a : Alike u t h b)
include a

theorem lastLogIndex : t.lastLogIndex = u.lastLogIndex := by
  rw [a.trimmed.lastLogIndex, a.whole.lastLogIndex]

/-- Both have an entry of the same term at each index from the snapshot on. -/
theorem entry_term (hb : b ≤ i) (hi : i ≤ h.length) : ∃ e e', u.entry i = some e ∧
    t.entry i = some e' ∧ e'.term = e.term ∧ e.term = lastTerm (h.take i) := by
  obtain ⟨e, he, h1, -⟩ := a.whole.entry (Nat.zero_le i) hi
  obtain ⟨e', he', h2, -⟩ := a.trimmed.entry hb hi
  exact ⟨e, e', he, he', h2.trans h1.symm, h1⟩

theorem last : ∃ e e', u.entry u.lastLogIndex = some e ∧ t.entry u.lastLogIndex = some e' ∧
    e'.term = e.term := by
  obtain ⟨e, e', he, he', ht, -⟩ := a.entry_term a.trimmed.le le_rfl
  rw [a.whole.lastLogIndex]
  exact ⟨e, e', he, he', ht⟩

/-- Above the snapshot the logs are the same. -/
theorem entry_eq {j : ℤ} (hj : t.lastIncludedIndex < j) : t.entry j = u.entry j := by
  by_cases hlast : j ≤ t.lastLogIndex
  · obtain ⟨i, rfl, hb, hi⟩ := a.trimmed.nat_of_le hj.le hlast
    rw [a.trimmed.index] at hj
    rw [a.trimmed.entry_eq (by omega) hi, a.whole.entry_eq (by omega) hi]
  · have hnone {rf : Raft n C D} (hl : ¬ j ≤ rf.lastLogIndex) : rf.entry j = none := by
      cases he : rf.entry j with
      | none => rfl
      | some e => exact absurd (bounds_of_entry he).2 hl
    rw [hnone hlast, hnone (a.lastLogIndex ▸ hlast)]

theorem same : SameProtocol u t := by
  obtain ⟨e, e', he, he', ht, hterm⟩ := a.entry_term le_rfl a.trimmed.le
  have hterm' := hterm.trans a.trimmed.term.symm
  refine ⟨a.currentTerm, a.votedFor, a.currentRole, a.lastLogIndex, fun _ => a.entry_eq, ?_, ?_⟩
  · rw [a.trimmed.index, he', Option.map_some, ht, hterm']
  · rw [a.trimmed.index, he, Option.map_some, hterm']

/-- The indices of a leader, the commit index, the applier and the persister do not matter. -/
theorem congr (hu : u'.me = u.me ∧ u'.currentRole = u.currentRole ∧
      u'.persistentState = u.persistentState)
    (ht : t'.me = t.me ∧ t'.currentRole = t.currentRole ∧
      t'.persistentState = t.persistentState) : Alike u' t' h b := by
  obtain ⟨hu1, hu2, hu3⟩ := hu
  obtain ⟨ht1, ht2, ht3⟩ := ht
  simp only [persistentState, PersistentState.mk.injEq] at hu3 ht3
  obtain ⟨hu3, hu4, hu5, hu6, hu7⟩ := hu3
  obtain ⟨ht3, ht4, ht5, ht6, ht7⟩ := ht3
  exact {
    whole := a.whole.congr hu5 hu6 hu7
    trimmed := a.trimmed.congr ht5 ht6 ht7
    me := by rw [hu1, ht1, a.me]
    currentTerm := by rw [hu3, ht3, a.currentTerm]
    votedFor := by rw [hu4, ht4, a.votedFor]
    currentRole := by rw [hu2, ht2, a.currentRole] }

/-! ## Requests -/

theorem requestVoteTerm (args : RequestVoteArgs) :
    Alike (u.requestVoteTerm args) (t.requestVoteTerm args) h b := by
  unfold Raft.requestVoteTerm
  rw [a.currentTerm]
  split
  · exact ⟨a.whole.congr rfl rfl rfl, a.trimmed.congr rfl rfl rfl, a.me, rfl, rfl, rfl⟩
  · exact a

theorem requestVoteRest {args : RequestVoteArgs} {reply : RequestVoteReply}
    (hu : u.requestVoteRest args = some (u', reply)) :
    ∃ t', t.requestVoteRest args = some (t', reply) ∧ Alike u' t' h b := by
  obtain ⟨e, e', he, he', hterm⟩ := a.last
  unfold Raft.requestVoteRest at hu ⊢
  rw [a.votedFor, a.lastLogIndex, a.currentTerm, he', Option.bind_eq_bind, Option.bind_some, hterm]
  rw [he, Option.bind_eq_bind, Option.bind_some] at hu
  by_cases hv : u.votedFor = -1 ∨ u.votedFor = args.candidateId
  · rw [if_pos hv] at hu ⊢
    by_cases hlast : e.term < args.lastLogTerm ∨
        e.term = args.lastLogTerm ∧ u.lastLogIndex ≤ args.lastLogIndex
    · rw [if_pos hlast] at hu ⊢
      cases hu
      exact ⟨_, rfl, a.whole.congr rfl rfl rfl, a.trimmed.congr rfl rfl rfl, a.me, rfl, rfl,
        a.currentRole⟩
    · rw [if_neg hlast] at hu ⊢
      cases hu
      exact ⟨t, rfl, a⟩
  · rw [if_neg hv] at hu ⊢
    cases hu
    exact ⟨t, rfl, a⟩

theorem requestVote {args : RequestVoteArgs} {reply : RequestVoteReply}
    (hu : u.requestVote args = some (u', reply)) :
    ∃ t', t.requestVote args = some (t', reply) ∧ Alike u' t' h b := by
  unfold Raft.requestVote at hu ⊢
  rw [a.currentTerm]
  by_cases hlt : args.term < u.currentTerm
  · rw [if_pos hlt] at hu ⊢
    cases hu
    exact ⟨t, rfl, a⟩
  · rw [if_neg hlt] at hu ⊢
    exact (a.requestVoteTerm args).requestVoteRest hu

theorem appendEntriesTerm (args : AppendEntriesArgs C) :
    Alike { u.appendEntriesTerm args with currentRole := .follower }
      { t.appendEntriesTerm args with currentRole := .follower } h b := by
  unfold Raft.appendEntriesTerm
  rw [a.currentTerm]
  split
  · exact ⟨a.whole.congr rfl rfl rfl, a.trimmed.congr rfl rfl rfl, a.me, rfl, rfl, rfl⟩
  · exact ⟨a.whole.congr rfl rfl rfl, a.trimmed.congr rfl rfl rfl, a.me, a.currentTerm, a.votedFor,
      rfl⟩

end Alike

/-- The history is cut after `PrevLogIndex` and gets the new entries. -/
theorem Keeps.appendNew {rf : Raft n C D} {args : AppendEntriesArgs C} (hk : rf.Keeps h b)
    (hprev : args.prevLogIndex = i) (hb : b ≤ i) (hi : i ≤ h.length) :
    ∃ rf', rf.appendNew args = some rf' ∧ rf'.Keeps (h.take i ++ args.entries) b ∧
      rf'.me = rf.me ∧ rf'.currentTerm = rf.currentTerm ∧ rf'.votedFor = rf.votedFor ∧
      rf'.currentRole = rf.currentRole := by
  have hlen : (h.take i).length = i := by rw [List.length_take]; omega
  have htake : h.take i = (h.take i ++ args.entries).take i := by rw [List.take_left' hlen]
  have hdrop : args.entries = (h.take i ++ args.entries).drop i := by rw [List.drop_left' hlen]
  rw [Raft.appendNew, hprev, hk.entriesTo hb hi]
  refine ⟨_, rfl, ⟨?_, hk.index, ?_, ?_⟩, rfl, rfl, rfl, rfl⟩
  · rw [← trimmed_take_append hb htake, ← hdrop]
    rfl
  · rw [List.take_append_of_le_length (by omega), List.take_take, min_eq_left hb]
    exact hk.term
  · rw [List.length_append]
    omega

theorem electionIn_eq {rf : Raft n C D} {e : LogEntry C} {term : ℤ}
    (hrole : rf.currentRole ≠ .leader) (he : rf.entry rf.lastLogIndex = some e) :
    rf.electionIn term = some (
      { rf with
        currentRole := .candidate, currentTerm := term, votedFor := rf.me }.persist,
      { term := term, candidateId := rf.me
        lastLogIndex := rf.lastLogIndex, lastLogTerm := e.term }) := by
  rw [electionIn, if_neg hrole]
  exact Option.bind_eq_some_iff.mpr ⟨e, he, rfl⟩

namespace Alike

variable (a : Alike u t h b)
include a

theorem appendEntriesRest {args : AppendEntriesArgs C} {reply : AppendEntriesReply}
    (hb : t.lastIncludedIndex ≤ args.prevLogIndex)
    (hu : u.appendEntriesRest args = some (u', reply)) :
    ∃ t' reply' h', t.appendEntriesRest args = some (t', reply') ∧ Alike u' t' h' b ∧
      reply'.term = reply.term ∧ reply'.success = reply.success := by
  unfold Raft.appendEntriesRest at hu ⊢
  rw [a.lastLogIndex, a.currentTerm]
  by_cases hlast : u.lastLogIndex < args.prevLogIndex
  · rw [if_pos hlast] at hu ⊢
    cases hu
    exact ⟨t, _, h, rfl, a, rfl, rfl⟩
  obtain ⟨i, hi, hbi, hih⟩ := a.trimmed.nat_of_le hb (a.lastLogIndex ▸ not_lt.mp hlast)
  obtain ⟨e, e', he, he', hterm, -⟩ := a.entry_term hbi hih
  rw [if_neg hlast, if_neg (by rw [a.whole.index]; omega), hi, he, Option.bind_eq_bind,
    Option.bind_some] at hu
  rw [if_neg hlast, if_neg (not_lt.mpr hb), hi, he', Option.bind_eq_bind, Option.bind_some, hterm]
  by_cases hprev : e.term ≠ args.prevLogTerm
  · rw [if_pos hprev] at hu ⊢
    cases hu
    exact ⟨t, _, h, rfl, a, rfl, rfl⟩
  · obtain ⟨u₁, hu₁, hk, hm, ht, hv, hr⟩ := a.whole.appendNew hi (Nat.zero_le i) hih
    obtain ⟨t₁, ht₁, hk', hm', ht', hv', hr'⟩ := a.trimmed.appendNew hi hbi hih
    rw [if_neg hprev, hu₁] at hu
    rw [if_neg hprev, ht₁]
    cases hu
    refine ⟨t₁, _, _, rfl, ⟨hk, hk', ?_, ?_, ?_, ?_⟩, rfl, rfl⟩
    · rw [hm, hm', a.me]
    · rw [ht, ht', a.currentTerm]
    · rw [hv, hv', a.votedFor]
    · rw [hr, hr', a.currentRole]

theorem appendEntries {args : AppendEntriesArgs C} {reply : AppendEntriesReply}
    (hb : t.lastIncludedIndex ≤ args.prevLogIndex)
    (hu : u.appendEntries args = some (u', reply)) :
    ∃ t' reply' h', t.appendEntries args = some (t', reply') ∧ Alike u' t' h' b ∧
      reply'.term = reply.term ∧ reply'.success = reply.success := by
  unfold Raft.appendEntries at hu ⊢
  rw [a.currentTerm]
  by_cases hlt : args.term < u.currentTerm
  · rw [if_pos hlt] at hu ⊢
    cases hu
    exact ⟨t, _, h, rfl, a, rfl, rfl⟩
  · rw [if_neg hlt] at hu ⊢
    refine (a.appendEntriesTerm args).appendEntriesRest ?_ hu
    exact (t.appendEntriesTerm_log args).2.1.trans_le hb

/-- A snapshot that the whole peer leaves is not news to the other one either. -/
theorem installSnapshot {args : InstallSnapshotArgs D} {reply : InstallSnapshotReply}
    (hu : u.installSnapshot args = some (u', reply)) (hwhole : u'.lastIncludedIndex = 0) :
    ∃ t', t.installSnapshot args = some (t', reply) ∧ Alike u' t' h b := by
  unfold Raft.installSnapshot at hu ⊢
  rw [a.currentTerm]
  by_cases hlt : args.term < u.currentTerm
  · rw [if_pos hlt] at hu ⊢
    cases hu
    exact ⟨t, rfl, a⟩
  rw [if_neg hlt] at hu ⊢
  by_cases hstale : args.lastIncludedIndex ≤ u.lastIncludedIndex
  · have hstale' : args.lastIncludedIndex ≤ t.lastIncludedIndex := by
      rw [a.whole.index] at hstale
      rw [a.trimmed.index]
      omega
    rw [if_pos hstale] at hu
    rw [if_pos hstale']
    cases hu
    refine ⟨_, rfl, a.whole.congr rfl rfl rfl, a.trimmed.congr rfl rfl rfl, a.me, ?_, a.votedFor,
      rfl⟩
    simp only [installSnapshotTerm, a.currentTerm]
  · rw [if_neg hstale] at hu
    obtain ⟨u₁, hu₁, h2⟩ := Option.map_eq_some_iff.mp hu
    obtain ⟨rest, -, rfl⟩ := Option.map_eq_some_iff.mp hu₁
    cases h2
    rw [a.whole.index] at hstale
    simp only [persist_lastIncludedIndex] at hwhole
    omega

/-! ## Calls of the service, elections, replies -/

theorem start (command : Option C) : (t.start command).2 = (u.start command).2 ∧
    ∃ h', Alike (u.start command).1 (t.start command).1 h' b := by
  unfold Raft.start
  rw [a.currentRole, a.currentTerm, a.lastLogIndex]
  split
  · exact ⟨rfl, h, a⟩
  refine ⟨rfl, h ++ [⟨u.currentTerm, command⟩], ?_⟩
  have happend {rf : Raft n C D} {b : ℕ} (hk : rf.Keeps h b) :
      ({ rf with log := rf.log ++ [⟨u.currentTerm, command⟩] } : Raft n C D).persist.Keeps
        (h ++ [⟨u.currentTerm, command⟩]) b := by
    have hle := hk.le
    refine ⟨?_, hk.index, ?_, ?_⟩
    · rw [← trimmed_append hle, ← hk.log]
      rfl
    · rw [List.take_append_of_le_length hle]
      exact hk.term
    · rw [List.length_append]
      omega
  exact ⟨happend a.whole, (happend a.trimmed).congr rfl rfl rfl, a.me, rfl, a.votedFor, rfl⟩

theorem snapshot {index : ℤ} {data : Option D} (hu : u.doSnapshot index data = some u')
    (hwhole : u'.lastIncludedIndex = 0) : u' = u ∧ t.doSnapshot index data = some t := by
  unfold Raft.doSnapshot at hu ⊢
  by_cases hskip : index ≤ u.lastIncludedIndex ∨ (u.log.length : ℤ) ≤ u.logIndex index
  · rw [if_pos hskip] at hu
    refine ⟨(Option.some.inj hu).symm, if_pos ?_⟩
    rw [a.whole.index, a.whole.length, a.whole.logIndex] at hskip
    rw [a.trimmed.index, a.trimmed.length, a.trimmed.logIndex]
    omega
  · rw [if_neg hskip] at hu
    obtain ⟨e, -, hu⟩ := Option.bind_eq_some_iff.mp hu
    obtain ⟨rest, -, hu⟩ := Option.bind_eq_some_iff.mp hu
    cases hu
    rw [a.whole.index] at hskip
    simp only [persist_lastIncludedIndex] at hwhole
    omega

theorem electionIn {term : ℤ} {args : RequestVoteArgs}
    (hu : u.electionIn term = some (u', args)) :
    ∃ t', t.electionIn term = some (t', args) ∧ Alike u' t' h b := by
  obtain ⟨e, e', he, he', hterm⟩ := a.last
  rw [← a.lastLogIndex] at he'
  have hlead : u.currentRole ≠ .leader := by
    intro hlead
    rw [Raft.electionIn, if_pos hlead] at hu
    cases hu
  rw [electionIn_eq hlead he] at hu
  rw [electionIn_eq (a.currentRole ▸ hlead) he', a.me, a.lastLogIndex, hterm]
  cases hu
  exact ⟨_, rfl, a.whole.congr rfl rfl rfl, a.trimmed.congr rfl rfl rfl, rfl, rfl, rfl, rfl⟩

theorem stepDown (term : ℤ) : Alike (u.stepDown term) (t.stepDown term) h b :=
  ⟨a.whole.congr rfl rfl rfl, a.trimmed.congr rfl rfl rfl, a.me, rfl, rfl, rfl⟩

theorem voteReply (voteCount : ℕ) (args : RequestVoteArgs) (reply : RequestVoteReply) :
    (t.voteReply voteCount args reply).2 = (u.voteReply voteCount args reply).2 ∧
      Alike (u.voteReply voteCount args reply).1 (t.voteReply voteCount args reply).1 h b := by
  unfold Raft.voteReply
  rw [a.currentTerm, a.currentRole]
  split
  · exact ⟨rfl, a.stepDown _⟩
  split
  · exact ⟨rfl, a⟩
  generalize (if reply.voteGranted then voteCount + 1 else voteCount) = count
  dsimp only
  split
  · exact ⟨rfl, a.whole.congr rfl rfl rfl, a.trimmed.congr rfl rfl rfl, a.me, a.currentTerm,
      a.votedFor, rfl⟩
  · exact ⟨rfl, a⟩

end Alike

/-- A reply to an append of the peer's term changes only what a leader counts. -/
theorem appendReply_same {rf rf' : Raft n C D} {target : Fin n} {args : AppendEntriesArgs C}
    {reply : AppendEntriesReply} (hrun : rf.appendReply target args reply = some rf')
    (hle : ¬ args.term < reply.term) : rf'.me = rf.me ∧ rf'.currentRole = rf.currentRole ∧
      rf'.persistentState = rf.persistentState := by
  unfold Raft.appendReply at hrun
  rw [if_neg hle] at hrun
  split at hrun
  · cases hrun
    exact ⟨rfl, rfl, rfl⟩
  split at hrun
  · obtain ⟨i, -, hrun⟩ := Option.bind_eq_some_iff.mp hrun
    cases hrun
    exact ⟨rfl, rfl, rfl⟩
  unfold retreat at hrun
  split at hrun
  · cases hrun
    exact ⟨rfl, rfl, rfl⟩
  · obtain ⟨i, -, hrun⟩ := Option.bind_eq_some_iff.mp hrun
    cases hrun
    exact ⟨rfl, rfl, rfl⟩

theorem snapshotReply_same {rf : Raft n C D} {target : Fin n} {args : InstallSnapshotArgs D}
    {reply : InstallSnapshotReply} (hle : ¬ args.term < reply.term) :
    (rf.snapshotReply target args reply).me = rf.me ∧
      (rf.snapshotReply target args reply).currentRole = rf.currentRole ∧
      (rf.snapshotReply target args reply).persistentState = rf.persistentState := by
  rw [Raft.snapshotReply, if_neg hle]
  split <;> exact ⟨rfl, rfl, rfl⟩

namespace Alike

variable (a : Alike u t h b)
include a

theorem appendReply {target : Fin n} {args : AppendEntriesArgs C} {reply : AppendEntriesReply}
    (hu : u.appendReply target args reply = some u')
    (ht : t.appendReply target args reply = some t') : Alike u' t' h b := by
  by_cases hlt : args.term < reply.term
  · rw [Raft.appendReply, if_pos hlt] at hu ht
    cases hu
    cases ht
    exact a.stepDown _
  · exact a.congr (appendReply_same hu hlt) (appendReply_same ht hlt)

theorem snapshotReply (target : Fin n) (args : InstallSnapshotArgs D)
    (reply : InstallSnapshotReply) :
    Alike (u.snapshotReply target args reply) (t.snapshotReply target args reply) h b := by
  by_cases hlt : args.term < reply.term
  · rw [Raft.snapshotReply, if_pos hlt, Raft.snapshotReply, if_pos hlt]
    exact a.stepDown _
  · exact a.congr (snapshotReply_same hlt) (snapshotReply_same hlt)

/-! ## What only the second peer does -/

/-- A snapshot of any index. -/
theorem trim {index : ℤ} {data : Option D} (ht : t.doSnapshot index data = some t') :
    ∃ b, Alike u t' h b := by
  unfold Raft.doSnapshot at ht
  split at ht
  · cases ht
    exact ⟨b, a⟩
  rename_i hin
  have hle := a.trimmed.le
  rw [a.trimmed.index, a.trimmed.length, a.trimmed.logIndex] at hin
  obtain ⟨i, rfl⟩ : ∃ i : ℕ, index = i := ⟨index.toNat, by omega⟩
  have hbi : b ≤ i := by omega
  have hi : i ≤ h.length := by omega
  obtain ⟨e, he, hterm, -⟩ := a.trimmed.entry hbi hi
  rw [he, a.trimmed.entriesFrom hbi hi] at ht
  cases ht
  refine ⟨i, a.whole, ⟨?_, rfl, hterm, hi⟩, a.me, a.currentTerm, a.votedFor, a.currentRole⟩
  rw [CollabIde.trimmed, ← hterm]
  rfl

/-- A snapshot whose last entry the peer has. -/
theorem install {args : InstallSnapshotArgs D} {reply : InstallSnapshotReply}
    (hterm : args.term = t.currentTerm) (hrole : t.currentRole = .follower)
    (hentry : (u.entry args.lastIncludedIndex).map LogEntry.term = some args.lastIncludedTerm)
    (ht : t.installSnapshot args = some (t', reply)) : ∃ b, Alike u t' h b := by
  have a₁ : Alike u (t.installSnapshotTerm args) h b := by
    refine ⟨a.whole, a.trimmed.congr rfl rfl rfl, a.me, ?_, a.votedFor, ?_⟩
    · simp only [installSnapshotTerm, hterm, lt_irrefl, if_false, a.currentTerm]
    · simp only [installSnapshotTerm, ← a.currentRole, hrole]
  unfold Raft.installSnapshot at ht
  rw [if_neg (hterm ▸ lt_irrefl _)] at ht
  split at ht
  · cases ht
    exact ⟨b, a₁⟩
  rename_i hnew
  obtain ⟨t₂, ht₂, h2⟩ := Option.map_eq_some_iff.mp ht
  cases h2
  obtain ⟨e, he, heterm⟩ := Option.map_eq_some_iff.mp hentry
  have hlast := (bounds_of_entry he).2
  rw [a.trimmed.index, not_le] at hnew
  rw [← a.lastLogIndex, a.trimmed.lastLogIndex] at hlast
  generalize t.installSnapshotTerm args = t₁ at ht₂ a₁
  obtain ⟨i, hidx⟩ : ∃ i : ℕ, args.lastIncludedIndex = i :=
    ⟨args.lastIncludedIndex.toNat, by omega⟩
  rw [hidx] at he
  have hbi : b ≤ i := by omega
  have hi : i ≤ h.length := by omega
  obtain ⟨f, f', hf, hf', hff, hlastTerm⟩ := a₁.entry_term hbi hi
  cases hf.symm.trans he
  have hhas : t₁.hasSnapshot args = some true := by
    rw [Raft.hasSnapshot, hidx, a₁.trimmed.lastLogIndex, if_pos (by omega), hf', Option.map_some,
      hff, heterm, decide_eq_true rfl]
  obtain ⟨rest, hrest, rfl⟩ := Option.map_eq_some_iff.mp ht₂
  rw [Raft.afterSnapshot, hhas, Option.bind_eq_bind, Option.bind_some, if_pos rfl, hidx,
    a₁.trimmed.entriesFrom hbi hi, Option.some.injEq] at hrest
  refine ⟨i, a.whole, ⟨?_, hidx, heterm.symm.trans hlastTerm, hi⟩, a₁.me, a₁.currentTerm, a₁.votedFor,
    a₁.currentRole⟩
  rw [CollabIde.trimmed, ← hlastTerm, heterm, hrest]
  rfl

end Alike

/-! ## A call -/

namespace Alike

variable (a : Alike u t h b) {x : Call n C D}
include a

/-- Both peers handle a call alike, if no append starts before the snapshot and the first peer
keeps its whole log. -/
theorem call (hwhole : u'.lastIncludedIndex = 0)
    (hprev : ∀ args, x = .appendEntries args → t.lastIncludedIndex ≤ args.prevLogIndex)
    (hreply : ∀ target args reply, x ≠ .appendReply target args reply)
    (hu : u.after x = some u') :
    ∃ t' h', t.after x = some t' ∧ t.outcome x = u.outcome x ∧ Alike u' t' h' b := by
  cases x with
  | requestVote args =>
    obtain ⟨r, hr, rfl⟩ := Option.map_eq_some_iff.mp hu
    obtain ⟨t', ht, a'⟩ := a.requestVote hr
    exact ⟨t', h, by rw [after, ht]; rfl, by rw [outcome, outcome, ht, hr]; rfl, a'⟩
  | appendEntries args =>
    obtain ⟨r, hr, rfl⟩ := Option.map_eq_some_iff.mp hu
    obtain ⟨t', reply', h', ht, a', hterm, hsuccess⟩ := a.appendEntries (hprev args rfl) hr
    refine ⟨t', h', by rw [after, ht]; rfl, ?_, a'⟩
    rw [outcome, outcome, ht, hr, Option.map_some, Option.map_some, hterm, hsuccess]
  | installSnapshot args =>
    obtain ⟨r, hr, rfl⟩ := Option.map_eq_some_iff.mp hu
    obtain ⟨t', ht, a'⟩ := a.installSnapshot hr hwhole
    exact ⟨t', h, by rw [after, ht]; rfl, by rw [outcome, outcome, ht, hr]; rfl, a'⟩
  | start command =>
    cases hu
    obtain ⟨hstart, h', a'⟩ := a.start command
    exact ⟨_, h', rfl, by rw [outcome, outcome, hstart], a'⟩
  | snapshot index data =>
    obtain ⟨rfl, ht⟩ := a.snapshot hu hwhole
    have hu' : u'.doSnapshot index data = some u' := hu
    exact ⟨t, h, ht, by rw [outcome, outcome, ht, hu']; rfl, a⟩
  | election =>
    obtain ⟨r, hr, rfl⟩ := Option.map_eq_some_iff.mp hu
    obtain ⟨t', ht, a'⟩ := a.electionIn hr
    rw [← a.currentTerm] at ht
    change t.startElectionInt = some (t', r.2) at ht
    exact ⟨t', h, by rw [after, ht]; rfl, by rw [outcome, outcome, ht, hr]; rfl, a'⟩
  | voteReply voteCount args reply =>
    cases hu
    obtain ⟨hcount, a'⟩ := a.voteReply voteCount args reply
    exact ⟨_, h, rfl, by rw [outcome, outcome, hcount], a'⟩
  | appendReply target args reply => exact absurd rfl (hreply target args reply)
  | snapshotReply target args reply =>
    cases hu
    exact ⟨_, h, rfl, rfl, a.snapshotReply target args reply⟩

end Alike

/-- The commit loop ends, if the commit index is not behind the snapshot. -/
theorem exists_appendReply {rf : Raft n C D} (hb : rf.lastIncludedIndex ≤ rf.commitIndex)
    (target : Fin n) (args : AppendEntriesArgs C) (reply : AppendEntriesReply) :
    ∃ rf', rf.appendReply target args reply = some rf' := by
  unfold Raft.appendReply
  split
  · exact ⟨_, rfl⟩
  split
  · exact ⟨_, rfl⟩
  split
  · obtain ⟨i, hi⟩ := @exists_newCommitIndex n C D { rf with
      nextIndex := Function.update rf.nextIndex target
        (args.prevLogIndex + args.entries.length + 1)
      matchIndex := Function.update rf.matchIndex target
        (args.prevLogIndex + args.entries.length) } args.term hb
    exact ⟨_, Option.bind_eq_some_iff.mpr ⟨i, hi, rfl⟩⟩
  unfold retreat
  split
  · exact ⟨_, rfl⟩
  · obtain ⟨i, hi⟩ := rf.lastXTermIndex_isSome reply.xTerm le_rfl
    exact ⟨_, Option.bind_eq_some_iff.mpr ⟨i, hi, rfl⟩⟩

theorem appendNew_commitIndex {rf rf' : Raft n C D} {args : AppendEntriesArgs C}
    (hrun : rf.appendNew args = some rf') :
    rf.commitIndex ≤ rf'.commitIndex ∨ rf'.commitIndex = rf'.lastLogIndex := by
  obtain ⟨kept, -, hrun⟩ := Option.bind_eq_some_iff.mp hrun
  obtain ⟨rf₁, hrf₁⟩ : ∃ rf₁, rf₁ = ({ rf with log := kept ++ args.entries } : Raft n C D).persist :=
    ⟨_, rfl⟩
  have hcommit : rf.commitIndex = rf₁.commitIndex := by rw [hrf₁]; rfl
  dsimp only at hrun
  rw [← hrf₁] at hrun
  cases hrun
  rw [hcommit]
  dsimp only
  split
  · split
    · exact .inl (by omega)
    · exact .inr rfl
  · exact .inl le_rfl

/-- A snapshot that is taken lies behind the commit index, if its index does. -/
theorem doSnapshot_base {rf rf' : Raft n C D} {index : ℤ} {data : Option D}
    (hrun : rf.doSnapshot index data = some rf') (hb : rf.lastIncludedIndex ≤ rf.commitIndex)
    (hindex : index ≤ rf.commitIndex) : rf'.lastIncludedIndex ≤ rf'.commitIndex := by
  unfold doSnapshot at hrun
  split at hrun
  · cases hrun
    exact hb
  · obtain ⟨e, -, hrun⟩ := Option.bind_eq_some_iff.mp hrun
    obtain ⟨rest, -, hrun⟩ := Option.bind_eq_some_iff.mp hrun
    cases hrun
    exact hindex

/-- A snapshot that is installed raises the commit index. -/
theorem installSnapshot_base {rf : Raft n C D} {args : InstallSnapshotArgs D}
    {r : Raft n C D × InstallSnapshotReply} (hrun : rf.installSnapshot args = some r)
    (hb : rf.lastIncludedIndex ≤ rf.commitIndex) : r.1.lastIncludedIndex ≤ r.1.commitIndex := by
  unfold Raft.installSnapshot at hrun
  split at hrun
  · cases hrun
    exact hb
  split at hrun
  · cases hrun
    exact hb
  · obtain ⟨rf₁, hrf₁, rfl⟩ := Option.map_eq_some_iff.mp hrun
    obtain ⟨rest, -, rfl⟩ := Option.map_eq_some_iff.mp hrf₁
    simp only [persist_lastIncludedIndex, persist_commitIndex]
    split
    · exact le_rfl
    · exact not_lt.mp ‹_›

/-- A call that lowers the commit index sets it to the end of the log. -/
theorem commitIndex_after {rf rf' : Raft n C D} {x : Call n C D} (hrun : rf.after x = some rf') :
    rf.commitIndex ≤ rf'.commitIndex ∨ rf'.commitIndex = rf'.lastLogIndex := by
  cases x with
  | requestVote args =>
    obtain ⟨r, hr, rfl⟩ := Option.map_eq_some_iff.mp hrun
    exact .inl (requestVote_commitIndex hr).ge
  | appendEntries args =>
    obtain ⟨r, hr, rfl⟩ := Option.map_eq_some_iff.mp hrun
    unfold Raft.appendEntries at hr
    split at hr
    · cases hr
      exact .inl le_rfl
    have hcommit := (rf.appendEntriesTerm_log args).2.2.2
    unfold appendEntriesRest at hr
    split at hr
    · cases hr
      exact .inl hcommit.ge
    split at hr
    · cases hr
      exact .inl hcommit.ge
    obtain ⟨prev, -, hr⟩ := Option.bind_eq_some_iff.mp hr
    split at hr
    · cases hr
      exact .inl hcommit.ge
    obtain ⟨rf₁, hrf₁, hr⟩ := Option.bind_eq_some_iff.mp hr
    cases hr
    exact (appendNew_commitIndex hrf₁).imp_left hcommit.ge.trans
  | installSnapshot args =>
    obtain ⟨r, hr, rfl⟩ := Option.map_eq_some_iff.mp hrun
    exact .inl (installSnapshot_commitIndex hr)
  | start command =>
    cases hrun
    exact .inl (start_commitIndex command).ge
  | snapshot index data => exact .inl (doSnapshot_commitIndex hrun).ge
  | election =>
    obtain ⟨r, hr, rfl⟩ := Option.map_eq_some_iff.mp hrun
    exact .inl (electionIn_commitIndex hr).ge
  | voteReply voteCount args reply =>
    cases hrun
    obtain ⟨-, hcommit⟩ | hwin := rf.voteReply_cases voteCount args reply
    · exact .inl hcommit.ge
    · rw [hwin]
      exact .inl le_rfl
  | appendReply target args reply =>
    obtain ⟨-, hcommit⟩ | ⟨-, -, -, hrep⟩ := appendReply_cases hrun
    · exact .inl hcommit.ge
    · cases hrep with
      | advance _ hi => exact .inl hi
      | retreat _ _ => exact .inl le_rfl
  | snapshotReply target args reply =>
    cases hrun
    obtain ⟨-, hcommit⟩ | ⟨-, -, -, hrf⟩ := rf.snapshotReply_cases target args reply
    · exact .inl hcommit.ge
    · rw [hrf]
      exact .inl le_rfl

end Raft

/-! ## Runs of the two peers -/

/-- A peer that keeps its whole log, and one that trims it; `committed` says that each snapshot it
took was of an index up to its commit index. -/
structure Pair (n : ℕ) (C D : Type) where
  whole : Raft n C D
  trimming : Raft n C D
  committed : Bool

namespace Pair

/-- A call of both peers, or a snapshot that the second one takes or gets. -/
inductive Action (n : ℕ) (C D : Type) where
  | call (x : Call n C D)
  | trim (index : ℤ) (data : Option D)
  | install (args : InstallSnapshotArgs D)

open Raft

variable {n : ℕ} {C D : Type}

/-- One peer, twice. -/
def Initial (p : Pair n C D) : Prop :=
  p.trimming = p.whole ∧ p.committed = true ∧ 0 ≤ p.whole.commitIndex ∧ ∃ h, p.whole.Keeps h 0

def step (p : Pair n C D) : Action n C D → Option (Pair n C D)
  | .call x => do
    let whole ← p.whole.after x
    let trimming ← p.trimming.after x
    some { p with whole := whole, trimming := trimming }
  | .trim index data => do
    let trimming ← p.trimming.doSnapshot index data
    some { p with
      trimming := trimming
      committed := p.committed && decide (index ≤ p.trimming.commitIndex) }
  | .install args => do
    let r ← p.trimming.installSnapshot args
    some { p with trimming := r.1 }

/-- The first peer keeps its whole log; no append starts before the snapshot of the second one; a
snapshot that the second one gets is of the term it follows in, and ends with an entry it has. -/
def Allowed (p : Pair n C D) : Action n C D → Prop
  | .call x => (∀ rf, p.whole.after x = some rf → rf.lastIncludedIndex = 0) ∧
    ∀ args, x = .appendEntries args → p.trimming.lastIncludedIndex ≤ args.prevLogIndex
  | .trim _ _ => True
  | .install args => args.term = p.trimming.currentTerm ∧ p.trimming.currentRole = .follower ∧
    (p.whole.entry args.lastIncludedIndex).map LogEntry.term = some args.lastIncludedTerm

def machine (n : ℕ) (C D : Type) : Machine (Pair n C D) (Action n C D) := ⟨Initial, step⟩

/-- What all runs keep. -/
structure Inv (p : Pair n C D) : Prop where
  alike : ∃ h b, p.whole.Alike p.trimming h b
  base : p.committed = true → p.trimming.lastIncludedIndex ≤ p.trimming.commitIndex

variable {p p' : Pair n C D}

theorem Initial.inv (hp : p.Initial) : p.Inv := by
  obtain ⟨heq, -, hcommit, h, hk⟩ := hp
  rw [← heq] at hk hcommit
  exact ⟨⟨h, 0, heq ▸ ⟨hk, hk, rfl, rfl, rfl, rfl⟩⟩, fun _ => hk.index.trans_le hcommit⟩

namespace Inv

variable (hp : p.Inv)
include hp

/-- A call that the first peer handles is handled by the second one, with the same outcome. -/
theorem call {x : Call n C D} {whole : Raft n C D} (hok : p.Allowed (.call x))
    (hreply : ∀ target args reply, x = .appendReply target args reply → p.committed = true)
    (hu : p.whole.after x = some whole) :
    ∃ trimming, p.trimming.after x = some trimming ∧
      p.trimming.outcome x = p.whole.outcome x ∧ SameProtocol whole trimming := by
  obtain ⟨h, b, a⟩ := hp.alike
  by_cases hx : ∃ target args reply, x = .appendReply target args reply
  · obtain ⟨target, args, reply, rfl⟩ := hx
    have hu' : p.whole.appendReply target args reply = some whole := hu
    obtain ⟨t', ht⟩ := exists_appendReply (hp.base (hreply _ _ _ rfl)) target args reply
    exact ⟨t', ht, by rw [outcome, outcome, ht, hu']; rfl, (a.appendReply hu ht).same⟩
  · obtain ⟨t', h', ht, hout, a'⟩ := a.call (hok.1 _ hu) hok.2
      (fun target args reply he => hx ⟨target, args, reply, he⟩) hu
    exact ⟨t', ht, hout, a'.same⟩

theorem step_call {x : Call n C D} {whole trimming : Raft n C D} (hok : p.Allowed (.call x))
    (hu : p.whole.after x = some whole) (ht : p.trimming.after x = some trimming) :
    Inv { p with whole := whole, trimming := trimming } := by
  obtain ⟨h, b, a⟩ := hp.alike
  obtain ⟨h', a'⟩ : ∃ h', Alike whole trimming h' b := by
    by_cases hx : ∃ target args reply, x = .appendReply target args reply
    · obtain ⟨target, args, reply, rfl⟩ := hx
      exact ⟨h, a.appendReply hu ht⟩
    · obtain ⟨t', h', ht', -, a'⟩ := a.call (hok.1 _ hu) hok.2
        (fun target args reply he => hx ⟨target, args, reply, he⟩) hu
      cases ht.symm.trans ht'
      exact ⟨h', a'⟩
  refine ⟨⟨h', b, a'⟩, fun hc => ?_⟩
  have hbase := hp.base hc
  have hle := a'.trimmed.le
  rw [a.trimmed.index] at hbase
  rw [a'.trimmed.index]
  obtain hcommit | hcommit := commitIndex_after ht
  · exact hbase.trans hcommit
  · rw [hcommit, a'.trimmed.lastLogIndex]
    omega

theorem step_trim {index : ℤ} {data : Option D} {trimming : Raft n C D}
    (ht : p.trimming.doSnapshot index data = some trimming) :
    Inv { p with
      trimming := trimming
      committed := p.committed && decide (index ≤ p.trimming.commitIndex) } := by
  obtain ⟨h, b, a⟩ := hp.alike
  refine ⟨⟨h, a.trim ht⟩, fun hc => ?_⟩
  rw [Bool.and_eq_true, decide_eq_true_iff] at hc
  exact doSnapshot_base ht (hp.base hc.1) hc.2

theorem step_install {args : InstallSnapshotArgs D} {r : Raft n C D × InstallSnapshotReply}
    (hok : p.Allowed (.install args)) (ht : p.trimming.installSnapshot args = some r) :
    Inv { p with trimming := r.1 } := by
  obtain ⟨h, b, a⟩ := hp.alike
  exact ⟨⟨h, a.install hok.1 hok.2.1 hok.2.2 ht⟩, fun hc => installSnapshot_base ht (hp.base hc)⟩

theorem step {x : Action n C D} (hok : p.Allowed x) (hstep : p.step x = some p') : p'.Inv := by
  cases x with
  | call x =>
    obtain ⟨whole, hu, hstep⟩ := Option.bind_eq_some_iff.mp hstep
    obtain ⟨trimming, ht, hstep⟩ := Option.bind_eq_some_iff.mp hstep
    cases hstep
    exact hp.step_call hok hu ht
  | trim index data =>
    obtain ⟨trimming, ht, hstep⟩ := Option.bind_eq_some_iff.mp hstep
    cases hstep
    exact hp.step_trim ht
  | install args =>
    obtain ⟨r, ht, hstep⟩ := Option.bind_eq_some_iff.mp hstep
    cases hstep
    exact hp.step_install hok ht

end Inv

/-- **Trimming is invisible.** After any run the peer that trims its log shows the protocol what
the other one does, and each call that the other one handles it handles with the same outcome; the
reply of an append, if its snapshots were of committed indices. -/
theorem trimming_invisible (hp : (machine n C D).Reach Allowed p) :
    SameProtocol p.whole p.trimming ∧
      ∀ x whole, p.Allowed (.call x) → p.whole.after x = some whole →
        (∀ target args reply, x = .appendReply target args reply → p.committed = true) →
        ∃ trimming, p.trimming.after x = some trimming ∧
          p.trimming.outcome x = p.whole.outcome x ∧ SameProtocol whole trimming := by
  have hinv : p.Inv :=
    hp.invariant (fun _ (h : Initial _) => h.inv) fun _ _ _ _ hi ho hs => Inv.step hi ho hs
  obtain ⟨h, b, a⟩ := hinv.alike
  exact ⟨a.same, fun x whole hok hu hreply => hinv.call hok hreply hu⟩

/-- A cut behind the snapshot, a snapshot of all that is left, and then a vote. -/
theorem trimming_invisible_cut : ∃ p : Pair 3 ℕ Unit,
    (p.whole.lastIncludedIndex = 0 ∧ p.whole.log.length = 4 ∧
      p.trimming.lastIncludedIndex = 3 ∧ p.trimming.log.length = 1) ∧
    SameProtocol p.whole p.trimming ∧
    ∃ trimming, p.trimming.after (.requestVote ⟨3, 0, 3, 2⟩) = some trimming ∧
      p.trimming.outcome (.requestVote ⟨3, 0, 3, 2⟩) = some (.vote ⟨3, true⟩) := by
  have h : (machine 3 ℕ Unit).Reach Allowed ⟨blank 0 ⟨none, none⟩, blank 0 ⟨none, none⟩, true⟩ :=
    .init ⟨rfl, rfl, le_rfl, [], rfl, rfl, rfl, le_rfl⟩
  have h := h.step (x := Action.call (.appendEntries
    ⟨1, 1, 0, 0, [⟨1, some 10⟩, ⟨1, some 11⟩, ⟨1, some 12⟩], 2⟩))
    ⟨by rintro _ ⟨⟩; rfl, by rintro _ ⟨⟩; decide⟩ rfl
  have h := h.step (x := Action.trim 2 (some ())) trivial rfl
  have h := h.step (x := Action.call (.appendEntries ⟨2, 2, 2, 1, [⟨2, some 20⟩], 3⟩))
    ⟨by rintro _ ⟨⟩; rfl, by rintro _ ⟨⟩; decide⟩ rfl
  have h := h.step (x := Action.install ⟨2, 2, 3, 2, some ()⟩) ⟨rfl, rfl, rfl⟩ rfl
  obtain ⟨hsame, hcall⟩ := trimming_invisible h
  obtain ⟨trimming, ht, hout, -⟩ := hcall (.requestVote ⟨3, 0, 3, 2⟩) _
    ⟨by rintro _ ⟨⟩; rfl, by rintro _ ⟨⟩⟩ rfl (by rintro _ _ _ ⟨⟩)
  exact ⟨_, ⟨rfl, rfl, rfl, rfl⟩, hsame, trimming, ht, hout⟩

end Pair

end CollabIde
