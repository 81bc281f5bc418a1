import CollabIde.Raft.Step

/-!
# Where snapshots come from

A Raft changes its snapshot by a call of `Snapshot` or by `InstallSnapshot` alone, always with the
index that it belongs to, and the persister follows (`Raft.SnapshotSaved`). What a leader sends is
the snapshot that it has (`heartbeatTo_snapshot`).
-/

namespace CollabIde

variable {n : ℕ} {C D : Type}

/-- The Raft alone takes this step. -/
def Action.ofRaft : Action n C D → Bool
  | .snapshot .. | .apply _ | .send _ | .restart _ | .crashIn _ => false
  | _ => true

namespace Raft

variable {rf rf' rf'' : Raft n C D}

/-- A restart finds the snapshot, and the state with the snapshot's index. -/
structure SnapshotSaved (rf : Raft n C D) : Prop where
  snapshot : rf.persister.snapshot = rf.snapshot
  index : rf.persister.saved.lastIncludedIndex = rf.lastIncludedIndex

theorem make_persister (v : Fin n) (ps : Persister C D) : (make v ps).persister = ps := by
  rw [make_eq]
  rfl

theorem SnapshotSaved.make {v : Fin n} (h : rf.SnapshotSaved) :
    (make v rf.persister).SnapshotSaved ∧ (make v rf.persister).snapshot = rf.snapshot ∧
      (make v rf.persister).lastIncludedIndex = rf.lastIncludedIndex := by
  rw [make_eq]
  exact ⟨⟨rfl, rfl⟩, h.snapshot, h.index⟩

structure KeepsSnapshot (rf rf' : Raft n C D) : Prop where
  snapshot : rf'.snapshot = rf.snapshot
  index : rf'.lastIncludedIndex = rf.lastIncludedIndex
  applied : rf'.lastApplied = rf.lastApplied
  saved : rf.SnapshotSaved → rf'.SnapshotSaved

namespace KeepsSnapshot

theorem refl (rf : Raft n C D) : KeepsSnapshot rf rf := ⟨rfl, rfl, rfl, id⟩

theorem trans (h : KeepsSnapshot rf rf') (h' : KeepsSnapshot rf' rf'') : KeepsSnapshot rf rf'' :=
  ⟨h'.snapshot.trans h.snapshot, h'.index.trans h.index, h'.applied.trans h.applied,
    fun hs => h'.saved (h.saved hs)⟩

/-- Nothing of the snapshot changes, and nothing is saved. -/
theorem of_eq (hsnapshot : rf'.snapshot = rf.snapshot)
    (hindex : rf'.lastIncludedIndex = rf.lastIncludedIndex)
    (happlied : rf'.lastApplied = rf.lastApplied) (hpersister : rf'.persister = rf.persister) :
    KeepsSnapshot rf rf' :=
  ⟨hsnapshot, hindex, happlied, fun hs => ⟨by rw [hpersister, hsnapshot, hs.snapshot],
    by rw [hpersister, hindex, hs.index]⟩⟩

theorem persist (h : KeepsSnapshot rf rf') : KeepsSnapshot rf rf'.persist :=
  ⟨h.snapshot, h.index, h.applied, fun hs =>
    ⟨by rw [persist_snapshot_saved, (h.saved hs).snapshot, Option.or_self, persist_snapshot], rfl⟩⟩

end KeepsSnapshot

open KeepsSnapshot

theorem stepDown_keepsSnapshot (t : ℤ) : KeepsSnapshot rf (rf.stepDown t) :=
  .persist (of_eq rfl rfl rfl rfl)

theorem requestVoteTerm_keepsSnapshot (args : RequestVoteArgs) :
    KeepsSnapshot rf (rf.requestVoteTerm args) := by
  unfold requestVoteTerm
  split
  · exact .persist (of_eq rfl rfl rfl rfl)
  · exact .refl rf

theorem requestVote_keepsSnapshot {args : RequestVoteArgs} {reply : RequestVoteReply}
    (h : rf.requestVote args = some (rf', reply)) : KeepsSnapshot rf rf' := by
  unfold requestVote at h
  split at h
  · cases h
    exact .refl rf
  refine (requestVoteTerm_keepsSnapshot args).trans ?_
  unfold requestVoteRest at h
  split at h
  · obtain ⟨e, -, h⟩ := Option.bind_eq_some_iff.mp h
    split at h
    · cases h
      exact .persist (of_eq rfl rfl rfl rfl)
    · cases h
      exact .refl _
  · cases h
    exact .refl _

theorem appendEntriesTerm_keepsSnapshot (args : AppendEntriesArgs C) :
    KeepsSnapshot rf (rf.appendEntriesTerm args) := by
  unfold appendEntriesTerm
  split
  · exact .persist (of_eq rfl rfl rfl rfl)
  · exact .refl rf

theorem appendNew_keepsSnapshot {args : AppendEntriesArgs C} (h : rf.appendNew args = some rf') :
    KeepsSnapshot rf rf' := by
  obtain ⟨kept, -, h⟩ := Option.bind_eq_some_iff.mp h
  cases h
  have hpersist : KeepsSnapshot rf { rf with log := kept ++ args.entries }.persist :=
    .persist (of_eq rfl rfl rfl rfl)
  exact hpersist.trans (of_eq rfl rfl rfl rfl)

theorem appendEntries_keepsSnapshot {args : AppendEntriesArgs C} {reply : AppendEntriesReply}
    (h : rf.appendEntries args = some (rf', reply)) : KeepsSnapshot rf rf' := by
  unfold appendEntries at h
  split at h
  · cases h
    exact .refl rf
  have hterm : KeepsSnapshot rf { rf.appendEntriesTerm args with currentRole := .follower } :=
    .trans (appendEntriesTerm_keepsSnapshot args) (of_eq rfl rfl rfl rfl)
  refine hterm.trans ?_
  unfold appendEntriesRest at h
  split at h
  · cases h
    exact .refl _
  split at h
  · cases h
    exact .refl _
  obtain ⟨e, -, h⟩ := Option.bind_eq_some_iff.mp h
  split at h
  · cases h
    exact .refl _
  obtain ⟨rf₁, h₁, h⟩ := Option.bind_eq_some_iff.mp h
  cases h
  exact appendNew_keepsSnapshot h₁

theorem start_keepsSnapshot (command : Option C) : KeepsSnapshot rf (rf.start command).1 := by
  unfold start
  split
  · exact .refl rf
  · exact .persist (of_eq rfl rfl rfl rfl)

theorem startElection_keepsSnapshot {args : RequestVoteArgs}
    (h : rf.startElection = some (rf', args)) : KeepsSnapshot rf rf' := by
  unfold startElection electionIn at h
  split at h
  · cases h
  · obtain ⟨e, -, h⟩ := Option.bind_eq_some_iff.mp h
    cases h
    exact .persist (of_eq rfl rfl rfl rfl)

theorem voteReply_keepsSnapshot (count : ℕ) (args : RequestVoteArgs) (reply : RequestVoteReply) :
    KeepsSnapshot rf (rf.voteReply count args reply).1 := by
  unfold voteReply
  split
  · exact stepDown_keepsSnapshot reply.term
  split
  · exact .refl rf
  generalize (if reply.voteGranted = true then count + 1 else count) = count'
  dsimp only
  split
  · exact of_eq rfl rfl rfl rfl
  · exact .refl rf

theorem appendReply_keepsSnapshot {target : Fin n} {args : AppendEntriesArgs C}
    {reply : AppendEntriesReply} (h : rf.appendReply target args reply = some rf') :
    KeepsSnapshot rf rf' := by
  unfold appendReply at h
  split at h
  · cases h
    exact stepDown_keepsSnapshot reply.term
  split at h
  · cases h
    exact .refl rf
  split at h
  · obtain ⟨i, -, h⟩ := Option.bind_eq_some_iff.mp h
    cases h
    exact of_eq rfl rfl rfl rfl
  · unfold retreat at h
    split at h
    · cases h
      exact of_eq rfl rfl rfl rfl
    · obtain ⟨i, -, h⟩ := Option.bind_eq_some_iff.mp h
      cases h
      exact of_eq rfl rfl rfl rfl

theorem snapshotReply_keepsSnapshot (target : Fin n) (args : InstallSnapshotArgs D)
    (reply : InstallSnapshotReply) : KeepsSnapshot rf (rf.snapshotReply target args reply) := by
  unfold snapshotReply
  split
  · exact stepDown_keepsSnapshot reply.term
  split
  · exact .refl rf
  · exact of_eq rfl rfl rfl rfl

/-- The peer has the snapshot of the request. -/
structure Installs (rf : Raft n C D) (args : InstallSnapshotArgs D) (rf' : Raft n C D) : Prop where
  lt : rf.lastIncludedIndex < args.lastIncludedIndex
  snapshot : rf'.snapshot = args.data
  index : rf'.lastIncludedIndex = args.lastIncludedIndex
  applied : rf'.lastApplied = rf.lastApplied
  saved : args.data.isSome → rf'.SnapshotSaved

theorem installSnapshot_keepsSnapshot {args : InstallSnapshotArgs D} {reply : InstallSnapshotReply}
    (h : rf.installSnapshot args = some (rf', reply)) :
    KeepsSnapshot rf rf' ∨ Installs rf args rf' := by
  unfold installSnapshot at h
  split at h
  · cases h
    exact .inl (.refl rf)
  split at h
  · cases h
    exact .inl (of_eq rfl rfl rfl rfl)
  rename_i hlt
  obtain ⟨rf₁, h₁, h⟩ := Option.map_eq_some_iff.mp h
  cases h
  obtain ⟨rest, -, rfl⟩ := Option.map_eq_some_iff.mp h₁
  refine .inr ⟨not_le.mp hlt, rfl, rfl, rfl, fun hd => ⟨?_, rfl⟩⟩
  obtain ⟨d, hd⟩ := Option.isSome_iff_exists.mp hd
  rw [persist_snapshot_saved, persist_snapshot, hd, Option.some_or]

/-- What a request does to the snapshot. -/
theorem serve_keepsSnapshot {r : Rpc C D} {answer : Answer C D}
    (h : rf.serve r = some (rf', answer)) :
    KeepsSnapshot rf rf' ∨ ∃ args, r = .snapshot args ∧ Installs rf args rf' := by
  cases r with
  | vote e args =>
    obtain ⟨⟨_, _⟩, hrun, hout⟩ := Option.map_eq_some_iff.mp h
    cases hout
    exact .inl (requestVote_keepsSnapshot hrun)
  | append args =>
    obtain ⟨⟨_, _⟩, hrun, hout⟩ := Option.map_eq_some_iff.mp h
    cases hout
    exact .inl (appendEntries_keepsSnapshot hrun)
  | snapshot args =>
    obtain ⟨⟨_, _⟩, hrun, hout⟩ := Option.map_eq_some_iff.mp h
    cases hout
    exact (installSnapshot_keepsSnapshot hrun).imp id fun hi => ⟨args, rfl, hi⟩

/-- A request that is cut short by a crash installs nothing. -/
theorem serveTerm_keepsSnapshot (r : Rpc C D) : KeepsSnapshot rf (rf.serveTerm r) := by
  cases r with
  | vote e args => exact requestVoteTerm_keepsSnapshot args
  | append args => exact appendEntriesTerm_keepsSnapshot args
  | snapshot args => exact .refl rf

/-- A call of `Snapshot`: the index is one of the log, or nothing changes. -/
theorem doSnapshot_keepsSnapshot {index : ℤ} {data : D}
    (h : rf.doSnapshot index (some data) = some rf') (hs : rf.SnapshotSaved) :
    rf'.SnapshotSaved := by
  unfold doSnapshot at h
  split at h
  · cases h
    exact hs
  · obtain ⟨e, -, h⟩ := Option.bind_eq_some_iff.mp h
    obtain ⟨rest, -, h⟩ := Option.bind_eq_some_iff.mp h
    cases h
    exact ⟨rfl, rfl⟩

/-- A leader sends the snapshot that it has. -/
theorem heartbeatTo_snapshot {j : Fin n} {m : Heartbeat C D} {args : InstallSnapshotArgs D}
    (h : rf.heartbeatTo j = some m) (hm : m.rpc = .snapshot args) :
    args.data = rf.snapshot ∧ args.lastIncludedIndex = rf.lastIncludedIndex := by
  unfold heartbeatTo at h
  split at h
  · cases h
    cases hm
    exact ⟨rfl, rfl⟩
  · obtain ⟨e, -, h⟩ := Option.bind_eq_some_iff.mp h
    obtain ⟨es, -, h⟩ := Option.bind_eq_some_iff.mp h
    cases h
    cases hm

end Raft

namespace Cluster

variable {s s' : Cluster n C D} {x : Action n C D}

/-- What a step of the Rafts does to the snapshot of a peer, and to what its applier sends. -/
theorem step_snapshot (hs : s.step x = some s') (hx : x.ofRaft = true) (i : Fin n) :
    (s'.proc i).applying = (s.proc i).applying ∧ (s'.proc i).epoch = (s.proc i).epoch ∧
      (Raft.KeepsSnapshot (s.proc i).raft (s'.proc i).raft ∨
        ∃ q ∈ s.requests, ∃ args, q.body = .snapshot args ∧
          Raft.Installs (s.proc i).raft args (s'.proc i).raft) := by
  -- only one peer takes part
  have hone (j : Fin n) (p : Proc n C D) (hp : s'.proc = Function.update s.proc j p)
      (happ : p.applying = (s.proc j).applying) (he : p.epoch = (s.proc j).epoch)
      (hraft : Raft.KeepsSnapshot (s.proc j).raft p.raft ∨ ∃ q ∈ s.requests, ∃ args,
        q.body = .snapshot args ∧ Raft.Installs (s.proc j).raft args p.raft) :
      (s'.proc i).applying = (s.proc i).applying ∧ (s'.proc i).epoch = (s.proc i).epoch ∧
        (Raft.KeepsSnapshot (s.proc i).raft (s'.proc i).raft ∨
          ∃ q ∈ s.requests, ∃ args, q.body = .snapshot args ∧
            Raft.Installs (s.proc i).raft args (s'.proc i).raft) := by
    rw [hp]
    by_cases hij : i = j
    · subst hij
      rw [Function.update_self]
      exact ⟨happ, he, hraft⟩
    · rw [Function.update_of_ne hij]
      exact ⟨rfl, rfl, .inl (.refl _)⟩
  cases x with
  | timeout j =>
    obtain ⟨⟨rf, args⟩, hrun, hs⟩ := Option.bind_eq_some_iff.mp hs
    cases hs
    exact hone j _ rfl rfl rfl (.inl (Raft.startElection_keepsSnapshot hrun))
  | heartbeat j =>
    obtain ⟨ms, hrun, hs⟩ := Option.bind_eq_some_iff.mp hs
    cases hs
    exact ⟨rfl, rfl, .inl (.refl _)⟩
  | start j command =>
    cases hs
    exact hone j _ rfl rfl rfl (.inl (Raft.start_keepsSnapshot command))
  | handle k =>
    obtain ⟨q, hq, hs⟩ := Option.bind_eq_some_iff.mp hs
    obtain ⟨⟨rf, answer⟩, hrun, hs⟩ := Option.bind_eq_some_iff.mp hs
    cases hs
    refine hone q.target _ rfl rfl rfl ((Raft.serve_keepsSnapshot hrun).imp id ?_)
    rintro ⟨args, hb, hi⟩
    exact ⟨q, List.mem_of_getElem? hq, args, hb, hi⟩
  | deliver k =>
    obtain ⟨q, hq, hs⟩ := Option.bind_eq_some_iff.mp hs
    split at hs
    swap
    · cases hs
    obtain ⟨⟨p, won⟩, hrec, hs⟩ := Option.bind_eq_some_iff.mp hs
    cases hs
    have hp : p.applying = (s.proc q.source).applying ∧ p.epoch = (s.proc q.source).epoch ∧
        Raft.KeepsSnapshot (s.proc q.source).raft p.raft := by
      generalize q.body = b at hrec
      cases b with
      | vote e args reply =>
        cases hrec
        exact ⟨rfl, rfl, Raft.voteReply_keepsSnapshot _ args reply⟩
      | append args reply =>
        obtain ⟨rf, hrf, hrec⟩ := Option.map_eq_some_iff.mp hrec
        cases hrec
        exact ⟨rfl, rfl, Raft.appendReply_keepsSnapshot hrf⟩
      | snapshot args reply =>
        cases hrec
        exact ⟨rfl, rfl, Raft.snapshotReply_keepsSnapshot q.target args reply⟩
    exact hone q.source p rfl hp.1 hp.2.1 (.inl hp.2.2)
  | loseRequest k =>
    cases hs
    exact ⟨rfl, rfl, .inl (.refl _)⟩
  | loseReply k =>
    cases hs
    exact ⟨rfl, rfl, .inl (.refl _)⟩
  | _ => cases hx

/-- A snapshot request is in flight, or its sender had the snapshot. -/
theorem snapshot_of_request (hs : s.step x = some s') {q : Envelope n (Rpc C D)}
    {args : InstallSnapshotArgs D} (hq : q ∈ s'.requests) (hb : q.body = .snapshot args) :
    q ∈ s.requests ∨ args.data = (s.proc q.source).raft.snapshot ∧
      args.lastIncludedIndex = (s.proc q.source).raft.lastIncludedIndex := by
  obtain hq | ⟨-, ⟨e, args', hb'⟩ | ⟨j, m, hb', hm⟩⟩ := (stepped hs).request q hq
  · exact .inl hq
  · rw [hb] at hb'
    cases hb'
  · exact .inr (Raft.heartbeatTo_snapshot hm (hb'.symm.trans hb))

end Cluster

end CollabIde
