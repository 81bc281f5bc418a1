import CollabIde.Raft.Lead

/-!
# What a step does

`Cluster.stepped`, proved once by the cases of a step: a peer goes on (`Raft.Continues`: it takes
no new leadership and keeps what it counts as a leader), runs its applier, restarts, wins an
election, or processes the reply of an append or a snapshot request (`PeerStep`); new requests,
replies and applied messages come from the peers' functions; the wins are a history. The
invariants about a leader's indices and about the applier are proved by these cases.
-/

namespace CollabIde

open Cluster

variable {n : ℕ} {C D : Type}

namespace Raft

/-- If the peer leads, it led the same term with the same indices. Nothing is applied. -/
structure Continues (rf rf' : Raft n C D) : Prop where
  applied : rf'.lastApplied = rf.lastApplied
  role : rf'.currentRole = .leader → rf.currentRole = .leader
  term : rf'.currentRole = .leader → rf'.currentTerm = rf.currentTerm
  nextIndex : rf'.currentRole = .leader → rf'.nextIndex = rf.nextIndex
  matchIndex : rf'.currentRole = .leader → rf'.matchIndex = rf.matchIndex

namespace Continues

variable {rf rf' rf'' : Raft n C D}

theorem refl (rf : Raft n C D) : Continues rf rf :=
  ⟨rfl, id, fun _ => rfl, fun _ => rfl, fun _ => rfl⟩

theorem trans (h : Continues rf rf') (h' : Continues rf' rf'') : Continues rf rf'' where
  applied := h'.applied.trans h.applied
  role hr := h.role (h'.role hr)
  term hr := (h'.term hr).trans (h.term (h'.role hr))
  nextIndex hr := (h'.nextIndex hr).trans (h.nextIndex (h'.role hr))
  matchIndex hr := (h'.matchIndex hr).trans (h.matchIndex (h'.role hr))

/-- A peer that does not lead. -/
theorem of_not_leader (hr : rf'.currentRole ≠ .leader)
    (ha : rf'.lastApplied = rf.lastApplied) : Continues rf rf' :=
  ⟨ha, fun h => absurd h hr, fun h => absurd h hr, fun h => absurd h hr, fun h => absurd h hr⟩

end Continues

variable {rf rf' : Raft n C D}

theorem start_continues (command : Option C) : Continues rf (rf.start command).1 := by
  unfold start
  split
  · exact .refl rf
  · exact ⟨rfl, id, fun _ => rfl, fun _ => rfl, fun _ => rfl⟩

theorem doSnapshot_continues {index : ℤ} {data : Option D}
    (h : rf.doSnapshot index data = some rf') : Continues rf rf' := by
  unfold doSnapshot at h
  split at h
  · cases h; exact .refl rf
  · obtain ⟨e, -, h⟩ := Option.bind_eq_some_iff.mp h
    obtain ⟨rest, -, h⟩ := Option.bind_eq_some_iff.mp h
    cases h
    exact ⟨rfl, id, fun _ => rfl, fun _ => rfl, fun _ => rfl⟩

theorem startElection_continues {args : RequestVoteArgs}
    (h : rf.startElection = some (rf', args)) : Continues rf rf' := by
  unfold startElection electionIn at h
  split at h
  · cases h
  · obtain ⟨e, -, h⟩ := Option.bind_eq_some_iff.mp h
    cases h
    exact .of_not_leader nofun rfl

theorem start_commitIndex (command : Option C) :
    (rf.start command).1.commitIndex = rf.commitIndex := by
  unfold start
  split <;> rfl

theorem doSnapshot_commitIndex {index : ℤ} {data : Option D}
    (h : rf.doSnapshot index data = some rf') : rf'.commitIndex = rf.commitIndex := by
  unfold doSnapshot at h
  split at h
  · cases h; rfl
  · obtain ⟨e, -, h⟩ := Option.bind_eq_some_iff.mp h
    obtain ⟨rest, -, h⟩ := Option.bind_eq_some_iff.mp h
    cases h; rfl

theorem electionIn_commitIndex {term : ℤ} {args : RequestVoteArgs}
    (h : rf.electionIn term = some (rf', args)) : rf'.commitIndex = rf.commitIndex := by
  unfold electionIn at h
  split at h
  · cases h
  · obtain ⟨e, -, h⟩ := Option.bind_eq_some_iff.mp h
    cases h; rfl

theorem requestVote_commitIndex {args : RequestVoteArgs} {reply : RequestVoteReply}
    (h : rf.requestVote args = some (rf', reply)) : rf'.commitIndex = rf.commitIndex := by
  have h1 : (rf.requestVoteTerm args).commitIndex = rf.commitIndex := by
    unfold requestVoteTerm; split <;> rfl
  unfold requestVote at h
  split at h
  · cases h; rfl
  unfold requestVoteRest at h
  split at h
  · obtain ⟨e, -, h⟩ := Option.bind_eq_some_iff.mp h
    split at h <;> cases h <;> exact h1
  · cases h; exact h1

theorem installNew_commitIndex {args : InstallSnapshotArgs D}
    (h : rf.installNew args = some rf') : rf.commitIndex ≤ rf'.commitIndex := by
  obtain ⟨rest, -, rfl⟩ := Option.map_eq_some_iff.mp h
  simp only [persist_commitIndex]
  split <;> omega

theorem installSnapshot_commitIndex {args : InstallSnapshotArgs D} {reply : InstallSnapshotReply}
    (h : rf.installSnapshot args = some (rf', reply)) : rf.commitIndex ≤ rf'.commitIndex := by
  unfold installSnapshot at h
  split at h
  · cases h; exact le_rfl
  split at h
  · cases h; exact le_rfl
  · obtain ⟨rf₁, h1, h⟩ := Option.map_eq_some_iff.mp h
    cases h
    have := installNew_commitIndex h1
    exact this

theorem stepDown_continues (t : ℤ) : Continues rf (rf.stepDown t) :=
  .of_not_leader nofun rfl

theorem requestVote_continues {args : RequestVoteArgs} {reply : RequestVoteReply}
    (h : rf.requestVote args = some (rf', reply)) : Continues rf rf' := by
  unfold requestVote at h
  split at h
  · cases h; exact .refl rf
  · have h1 : Continues rf (rf.requestVoteTerm args) := by
      unfold requestVoteTerm
      split
      · exact stepDown_continues args.term
      · exact .refl rf
    refine h1.trans ?_
    unfold requestVoteRest at h
    split at h
    · obtain ⟨e, -, h⟩ := Option.bind_eq_some_iff.mp h
      split at h
      · cases h; exact ⟨rfl, id, fun _ => rfl, fun _ => rfl, fun _ => rfl⟩
      · cases h; exact .refl _
    · cases h; exact .refl _

/-- A peer that takes a request of a leader follows it. -/
theorem appendEntries_continues {args : AppendEntriesArgs C} {reply : AppendEntriesReply}
    (h : rf.appendEntries args = some (rf', reply)) : Continues rf rf' := by
  unfold appendEntries at h
  split at h
  · cases h; exact .refl rf
  have happ : (rf.appendEntriesTerm args).lastApplied = rf.lastApplied := by
    unfold appendEntriesTerm; split <;> rfl
  unfold appendEntriesRest at h
  split at h
  · cases h; exact .of_not_leader nofun happ
  split at h
  · cases h; exact .of_not_leader nofun happ
  obtain ⟨e, -, h⟩ := Option.bind_eq_some_iff.mp h
  split at h
  · cases h; exact .of_not_leader nofun happ
  obtain ⟨rf₁, h1, h⟩ := Option.bind_eq_some_iff.mp h
  cases h
  obtain ⟨kept, -, h1⟩ := Option.bind_eq_some_iff.mp h1
  cases h1
  exact .of_not_leader nofun happ

theorem installSnapshot_continues {args : InstallSnapshotArgs D} {reply : InstallSnapshotReply}
    (h : rf.installSnapshot args = some (rf', reply)) : Continues rf rf' := by
  unfold installSnapshot at h
  split at h
  · cases h; exact .refl rf
  split at h
  · cases h; exact .of_not_leader nofun rfl
  · obtain ⟨rf₁, h1, h⟩ := Option.map_eq_some_iff.mp h
    cases h
    obtain ⟨rest, -, rfl⟩ := Option.map_eq_some_iff.mp h1
    exact .of_not_leader nofun rfl

theorem serve_continues {r : Rpc C D} {answer : Answer C D}
    (h : rf.serve r = some (rf', answer)) : Continues rf rf' := by
  cases r with
  | vote e args =>
    obtain ⟨⟨_, _⟩, h1, h2⟩ := Option.map_eq_some_iff.mp h
    cases h2; exact requestVote_continues h1
  | append args =>
    obtain ⟨⟨_, _⟩, h1, h2⟩ := Option.map_eq_some_iff.mp h
    cases h2; exact appendEntries_continues h1
  | snapshot args =>
    obtain ⟨⟨_, _⟩, h1, h2⟩ := Option.map_eq_some_iff.mp h
    cases h2; exact installSnapshot_continues h1

/-- The request behind a reply. -/
theorem serve_append {r : Rpc C D} {args : AppendEntriesArgs C} {reply : AppendEntriesReply}
    (h : rf.serve r = some (rf', .append args reply)) :
    r = .append args ∧ rf.appendEntries args = some (rf', reply) := by
  cases r <;> obtain ⟨⟨_, _⟩, h1, h2⟩ := Option.map_eq_some_iff.mp h <;> cases h2
  exact ⟨rfl, h1⟩

theorem serve_snapshot {r : Rpc C D} {args : InstallSnapshotArgs D} {reply : InstallSnapshotReply}
    (h : rf.serve r = some (rf', .snapshot args reply)) :
    r = .snapshot args ∧ rf.installSnapshot args = some (rf', reply) := by
  cases r <;> obtain ⟨⟨_, _⟩, h1, h2⟩ := Option.map_eq_some_iff.mp h <;> cases h2
  exact ⟨rfl, h1⟩

/-- The reply of a vote request: the peer goes on, or becomes the leader of its term. -/
theorem voteReply_cases (rf : Raft n C D) (count : ℕ) (args : RequestVoteArgs)
    (reply : RequestVoteReply) :
    Continues rf (rf.voteReply count args reply).1 ∧
        (rf.voteReply count args reply).1.commitIndex = rf.commitIndex ∨
      (rf.voteReply count args reply).1 = rf.becomeLeader := by
  unfold voteReply
  split
  · exact .inl ⟨stepDown_continues _, rfl⟩
  split
  · exact .inl ⟨.refl rf, rfl⟩
  generalize (if reply.voteGranted = true then count + 1 else count) = count'
  dsimp only
  split
  · exact .inr rfl
  · exact .inl ⟨.refl rf, rfl⟩

/-- The applier changes `lastApplied` alone. -/
theorem applier_eq {out : List (Outgoing C)} (h : rf.applier = some (rf', out)) :
    ∃ k, rf' = { rf with lastApplied := k } := by
  unfold applier at h
  split at h
  · cases h; exact ⟨_, rfl⟩
  split at h
  · obtain ⟨es, -, h⟩ := Option.bind_eq_some_iff.mp h
    cases h; exact ⟨_, rfl⟩
  · cases h; exact ⟨rf.lastApplied, rfl⟩

/-- What the reply of an append request does to the leader of its term. -/
inductive AppendReplied (rf : Raft n C D) (target : Fin n) (args : AppendEntriesArgs C)
    (reply : AppendEntriesReply) : Raft n C D → Prop
  | advance {i : ℤ} : reply.success = true → rf.commitIndex ≤ i →
      AppendReplied rf target args reply { rf with
        nextIndex := Function.update rf.nextIndex target
          (args.prevLogIndex + args.entries.length + 1)
        matchIndex := Function.update rf.matchIndex target
          (args.prevLogIndex + args.entries.length)
        commitIndex := i }
  | retreat {i : ℤ} : reply.success = false →
      (reply.xTerm = -1 ∧ i = reply.xLen) ∨ (reply.xTerm ≠ -1 ∧ i = reply.xIndex) ∨
        i ≤ rf.lastLogIndex + 1 →
      AppendReplied rf target args reply { rf with
        nextIndex := Function.update rf.nextIndex target i }

theorem lastXTermIndex_le {t i : ℤ} {k : ℕ} (h : rf.lastXTermIndex t k = some i) :
    i = -1 ∨ i < rf.lastIncludedIndex + k := by
  induction k with
  | zero => exact .inl (by simpa [lastXTermIndex] using h.symm)
  | succ k ih =>
    rw [lastXTermIndex] at h
    obtain ⟨e, -, h⟩ := Option.bind_eq_some_iff.mp h
    split at h
    · cases h; right; push_cast; omega
    · rcases ih h with h1 | h1
      · exact .inl h1
      · right; push_cast; omega

/-- The reply of an append request: the peer goes on, or it leads the term of the request and
moves its indices of the target. -/
theorem appendReply_cases {target : Fin n} {args : AppendEntriesArgs C}
    {reply : AppendEntriesReply} (h : rf.appendReply target args reply = some rf') :
    Continues rf rf' ∧ rf'.commitIndex = rf.commitIndex ∨
      reply.term ≤ args.term ∧ rf.currentTerm = args.term ∧ rf.currentRole = .leader ∧
        AppendReplied rf target args reply rf' := by
  unfold appendReply at h
  split at h
  · cases h; exact .inl ⟨stepDown_continues _, rfl⟩
  split at h
  · cases h; exact .inl ⟨.refl rf, rfl⟩
  rename_i hle hlead
  rw [not_or, not_not, ne_eq, not_not] at hlead
  refine .inr ⟨not_lt.mp hle, hlead.1, hlead.2, ?_⟩
  split at h
  · rename_i hs
    obtain ⟨i, hi, h⟩ := Option.bind_eq_some_iff.mp h
    cases h
    refine .advance hs ?_
    rcases newCommitIndex_spec hi with h1 | ⟨h1, -⟩
    · exact h1.ge
    · exact h1.le
  · rename_i hs
    have hs' : reply.success = false := by simpa using hs
    unfold retreat at h
    split at h
    · cases h
      exact .retreat hs' (.inl ⟨‹_›, rfl⟩)
    · rename_i hx
      obtain ⟨i, hi, h⟩ := Option.bind_eq_some_iff.mp h
      cases h
      by_cases h1 : i = -1
      · rw [if_pos h1]
        exact .retreat hs' (.inr (.inl ⟨hx, rfl⟩))
      · rw [if_neg h1]
        refine .retreat hs' (.inr (.inr ?_))
        have := (lastXTermIndex_le hi).resolve_left h1
        unfold lastLogIndex
        omega

theorem snapshotReply_cases (rf : Raft n C D) (target : Fin n) (args : InstallSnapshotArgs D)
    (reply : InstallSnapshotReply) :
    Continues rf (rf.snapshotReply target args reply) ∧
        (rf.snapshotReply target args reply).commitIndex = rf.commitIndex ∨
      reply.term ≤ args.term ∧ rf.currentTerm = args.term ∧ rf.currentRole = .leader ∧
        rf.snapshotReply target args reply = { rf with
          nextIndex := Function.update rf.nextIndex target (args.lastIncludedIndex + 1)
          matchIndex := Function.update rf.matchIndex target args.lastIncludedIndex } := by
  unfold snapshotReply
  split
  · exact .inl ⟨stepDown_continues _, rfl⟩
  split
  · exact .inl ⟨.refl rf, rfl⟩
  · rename_i hle hlead
    rw [not_or, not_not, ne_eq, not_not] at hlead
    exact .inr ⟨not_lt.mp hle, hlead.1, hlead.2, rfl⟩

end Raft

/-- What one step of the cluster does to the peer `i`. -/
inductive PeerStep (s : Cluster n C D) (x : Action n C D) (i : Fin n) (p : Proc n C D) : Prop
  | continues (epoch : p.epoch = (s.proc i).epoch) (applying : p.applying ⊆ (s.proc i).applying)
      (raft : Raft.Continues (s.proc i).raft p.raft)
      (commit : x.handled = none → (s.proc i).raft.commitIndex ≤ p.raft.commitIndex)
  | applies (epoch : p.epoch = (s.proc i).epoch)
      (raft : (s.proc i).raft.applier = some (p.raft, p.applying))
  | restart (rf : Raft n C D) (epoch : p.epoch = (s.proc i).epoch + 1) (applying : p.applying = [])
      (raft : p.raft = .make rf.me rf.persister)
  | win (epoch : p.epoch = (s.proc i).epoch) (applying : p.applying = (s.proc i).applying)
      (raft : p.raft = (s.proc i).raft.becomeLeader)
  | appended (q : Envelope n (Answer C D)) (args : AppendEntriesArgs C)
      (reply : AppendEntriesReply) (epoch : p.epoch = (s.proc i).epoch)
      (applying : p.applying = (s.proc i).applying) (mem : q ∈ s.replies)
      (alive : q.epoch = (s.proc i).epoch) (source : q.source = i)
      (body : q.body = .append args reply) (le : reply.term ≤ args.term)
      (term : (s.proc i).raft.currentTerm = args.term)
      (role : (s.proc i).raft.currentRole = .leader)
      (raft : Raft.AppendReplied (s.proc i).raft q.target args reply p.raft)
  | snapped (q : Envelope n (Answer C D)) (args : InstallSnapshotArgs D)
      (reply : InstallSnapshotReply) (epoch : p.epoch = (s.proc i).epoch)
      (applying : p.applying = (s.proc i).applying) (mem : q ∈ s.replies)
      (alive : q.epoch = (s.proc i).epoch) (source : q.source = i)
      (body : q.body = .snapshot args reply) (le : reply.term ≤ args.term)
      (term : (s.proc i).raft.currentTerm = args.term)
      (role : (s.proc i).raft.currentRole = .leader)
      (raft : p.raft = { (s.proc i).raft with
        nextIndex :=
          Function.update (s.proc i).raft.nextIndex q.target (args.lastIncludedIndex + 1)
        matchIndex :=
          Function.update (s.proc i).raft.matchIndex q.target args.lastIncludedIndex })

/-- A request that its sender has just sent. -/
def NewRequest (s : Cluster n C D) (q : Envelope n (Rpc C D)) : Prop :=
  q.epoch = (s.proc q.source).epoch ∧ ((∃ e args, q.body = .vote e args) ∨
    ∃ j m, q.body = Raft.Heartbeat.rpc m ∧ (s.proc q.source).raft.heartbeatTo j = some m)

/-- A reply of a request that its target has just handled. -/
def NewReply (s s' : Cluster n C D) (q : Envelope n (Answer C D)) : Prop :=
  ∃ r, ⟨q.source, q.target, q.epoch, r⟩ ∈ s.requests ∧
    (s.proc q.target).raft.serve r = some ((s'.proc q.target).raft, q.body)

/-- What one step of the cluster does. -/
structure Stepped (s : Cluster n C D) (x : Action n C D) (s' : Cluster n C D) : Prop where
  peer : ∀ i, PeerStep s x i (s'.proc i)
  request : ∀ q ∈ s'.requests, q ∈ s.requests ∨ NewRequest s q
  reply : ∀ q ∈ s'.replies, q ∈ s.replies ∨ NewReply s s' q
  sent : ∀ m ∈ s'.sent, m ∈ s.sent ∨
    ∃ o ∈ (s.proc m.1).applying, m.2 = (s.proc m.1).raft.applyMsg o
  wins : s.wins <+: s'.wins

namespace Cluster

variable {s s' : Cluster n C D} {x : Action n C D} {i j : Fin n} {p : Proc n C D}

/-- A step in which the peer `j` changes. -/
theorem peer_update (hp : s'.proc = Function.update s.proc j p) (h : PeerStep s x j p)
    (i : Fin n) : PeerStep s x i (s'.proc i) := by
  rw [hp]
  by_cases hij : i = j
  · subst hij; rw [Function.update_self]; exact h
  · rw [Function.update_of_ne hij]
    exact .continues rfl (List.Subset.refl _) (.refl _) fun _ => le_rfl

/-- A step in which one peer changes, and nothing else. -/
theorem stepped_setProc (h : PeerStep s x j p) : Stepped s x (s.setProc j p) :=
  ⟨peer_update rfl h, fun _ h => .inl h, fun _ h => .inl h, fun _ h => .inl h, List.prefix_refl _⟩

theorem peerStep_receive {k : ℕ} {q : Envelope n (Answer C D)} {won : Bool}
    (hq : s.replies[k]? = some q) (hepoch : q.epoch = (s.proc q.source).epoch)
    (h : (s.proc q.source).receive q.target q.body = some (p, won)) :
    PeerStep s x q.source p := by
  have hmem := List.mem_of_getElem? hq
  cases hb : q.body with
  | vote e args reply =>
    rw [hb] at h
    cases h
    rcases Raft.voteReply_cases (s.proc q.source).raft ((s.proc q.source).voteCounts.getD e 0)
      args reply with ⟨h1, h2⟩ | h1
    · exact .continues rfl (List.Subset.refl _) h1 fun _ => h2.ge
    · exact .win rfl rfl h1
  | append args reply =>
    rw [hb] at h
    obtain ⟨rf, hrf, h⟩ := Option.map_eq_some_iff.mp h
    cases h
    rcases Raft.appendReply_cases hrf with ⟨h1, h2⟩ | ⟨h1, h2, h3, h4⟩
    · exact .continues rfl (List.Subset.refl _) h1 fun _ => h2.ge
    · exact .appended q args reply rfl rfl hmem hepoch rfl hb h1 h2 h3 h4
  | snapshot args reply =>
    rw [hb] at h
    cases h
    rcases Raft.snapshotReply_cases (s.proc q.source).raft q.target args reply with
      ⟨h1, h2⟩ | ⟨h1, h2, h3, h4⟩
    · exact .continues rfl (List.Subset.refl _) h1 fun _ => h2.ge
    · exact .snapped q args reply rfl rfl hmem hepoch rfl hb h1 h2 h3 h4

/-- **The cases of a step.** -/
theorem stepped (hs : s.step x = some s') : Stepped s x s' := by
  cases x with
  | timeout j =>
    obtain ⟨⟨rf, args⟩, hrun, hs⟩ := Option.bind_eq_some_iff.mp hs
    cases hs
    refine ⟨peer_update rfl
      (.continues rfl (List.Subset.refl _) (Raft.startElection_continues hrun)
        fun _ => (Raft.electionIn_commitIndex hrun).ge),
      fun q hq => ?_, fun _ h => .inl h, fun _ h => .inl h, List.prefix_refl _⟩
    rcases List.mem_append.mp hq with hq | hq
    · exact .inl hq
    · obtain ⟨t, -, rfl⟩ := List.mem_map.mp hq
      exact .inr ⟨rfl, .inl ⟨_, _, rfl⟩⟩
  | heartbeat j =>
    obtain ⟨ms, hrun, hs⟩ := Option.bind_eq_some_iff.mp hs
    cases hs
    refine ⟨fun i => .continues rfl (List.Subset.refl _) (.refl _) fun _ => le_rfl, fun q hq => ?_,
      fun _ h => .inl h, fun _ h => .inl h, List.prefix_refl _⟩
    rcases List.mem_append.mp hq with hq | hq
    · exact .inl hq
    · obtain ⟨m, hm, rfl⟩ := List.mem_map.mp hq
      unfold Raft.heartbeat at hrun
      split at hrun
      · cases hrun
      obtain ⟨t, -, ht⟩ := mem_of_mapM hrun hm
      obtain ⟨b, hb, rfl⟩ := Option.map_eq_some_iff.mp ht
      exact .inr ⟨rfl, .inr ⟨t, b, rfl, hb⟩⟩
  | start j command =>
    cases hs
    exact stepped_setProc
      (.continues rfl (List.Subset.refl _) (Raft.start_continues command)
        fun _ => (Raft.start_commitIndex command).ge)
  | snapshot j index data =>
    obtain ⟨rf, hrun, rfl⟩ := Option.map_eq_some_iff.mp hs
    exact stepped_setProc
      (.continues rfl (List.Subset.refl _) (Raft.doSnapshot_continues hrun)
        fun _ => (Raft.doSnapshot_commitIndex hrun).ge)
  | handle k =>
    obtain ⟨q', hq', hs⟩ := Option.bind_eq_some_iff.mp hs
    obtain ⟨⟨rf, answer⟩, hrun, hs⟩ := Option.bind_eq_some_iff.mp hs
    cases hs
    refine ⟨peer_update rfl
      (.continues rfl (List.Subset.refl _) (Raft.serve_continues hrun) nofun),
      fun q hq => .inl (List.mem_of_mem_eraseIdx hq), fun q hq => ?_, fun _ h => .inl h,
      List.prefix_refl _⟩
    rcases List.mem_append.mp hq with hq | hq
    · exact .inl hq
    · rw [List.mem_singleton] at hq
      subst hq
      exact .inr ⟨q'.body, List.mem_of_getElem? hq', by simpa [setRaft, setProc] using hrun⟩
  | deliver k =>
    obtain ⟨q, hq, hs⟩ := Option.bind_eq_some_iff.mp hs
    split at hs
    swap
    · cases hs
    obtain ⟨⟨p, won⟩, hrec, hs⟩ := Option.bind_eq_some_iff.mp hs
    cases hs
    refine ⟨peer_update rfl (peerStep_receive hq ‹_› hrec), fun _ h => .inl h,
      fun q hq => .inl (List.mem_of_mem_eraseIdx hq), fun _ h => .inl h, ?_⟩
    cases won
    · exact List.prefix_refl _
    · exact List.prefix_append _ _
  | loseRequest k =>
    cases hs
    exact ⟨fun i => .continues rfl (List.Subset.refl _) (.refl _) fun _ => le_rfl,
      fun q hq => .inl (List.mem_of_mem_eraseIdx hq), fun _ h => .inl h, fun _ h => .inl h,
      List.prefix_refl _⟩
  | loseReply k =>
    cases hs
    exact ⟨fun i => .continues rfl (List.Subset.refl _) (.refl _) fun _ => le_rfl,
      fun _ h => .inl h, fun q hq => .inl (List.mem_of_mem_eraseIdx hq), fun _ h => .inl h, List.prefix_refl _⟩
  | apply j =>
    dsimp only [Cluster.step, Cluster.apply] at hs
    split at hs
    · obtain ⟨⟨rf, out⟩, hrun, rfl⟩ := Option.map_eq_some_iff.mp hs
      exact stepped_setProc (.applies rfl hrun)
    · cases hs
  | send j =>
    dsimp only [Cluster.step, Cluster.send] at hs
    split at hs
    · cases hs
    · rename_i m rest hout
      cases hs
      refine ⟨peer_update rfl (.continues rfl (hout ▸ List.subset_cons_self m rest) (.refl _)
        fun _ => le_rfl),
        fun _ h => .inl h, fun _ h => .inl h, fun o ho => ?_, List.prefix_refl _⟩
      rcases List.mem_append.mp ho with ho | ho
      · exact .inl ho
      · rw [List.mem_singleton] at ho
        subst ho
        exact .inr ⟨m, by simp [hout], rfl⟩
  | restart j => cases hs; exact stepped_setProc (.restart _ rfl rfl rfl)
  | crashIn k =>
    obtain ⟨q, -, hs⟩ := Option.bind_eq_some_iff.mp hs
    cases hs
    exact ⟨peer_update rfl (.restart _ rfl rfl rfl),
      fun q hq => .inl (List.mem_of_mem_eraseIdx hq), fun _ h => .inl h, fun _ h => .inl h,
      List.prefix_refl _⟩

/-- The commit index of a peer that does not restart grows, in each step but a request that it
handles. -/
theorem commitIndex_le (hs : s.step x = some s') (hx : x.handled = none)
    (he : (s'.proc i).epoch = (s.proc i).epoch) :
    (s.proc i).raft.commitIndex ≤ (s'.proc i).raft.commitIndex := by
  cases (stepped hs).peer i with
  | continues _ _ _ hc => exact hc hx
  | applies _ hrun =>
    obtain ⟨k, hrf⟩ := Raft.applier_eq hrun
    rw [hrf]
  | restart _ he' => omega
  | win _ _ hrf => rw [hrf]; rfl
  | appended q args reply _ _ _ _ _ _ _ _ _ hrep =>
    generalize (s'.proc i).raft = rf' at hrep ⊢
    cases hrep with
    | advance _ hi => exact hi
    | retreat _ _ => exact le_rfl
  | snapped q args reply _ _ _ _ _ _ _ _ _ hrf => rw [hrf]

end Cluster

end CollabIde
