import CollabIde.Raft.Log
import CollabIde.Raft.Snapshots

/-!
# Where the entries of the logs come from

Only `Start` makes an entry. What a log holds behind its sentinel, and what an `AppendEntries`
request carries, has been in a log at the same index before. So what holds of every entry that
`Start` makes, with its index, holds of every entry (`Cluster.EachEntry.step`).
-/

namespace CollabIde

variable {n : ℕ} {C D : Type} {P Q : ℤ → LogEntry C → Prop}

namespace Raft

variable {rf rf' : Raft n C D}

variable (P) in
/-- The entries behind the sentinel, each with its index. -/
def EachEntry (rf : Raft n C D) : Prop :=
  ∀ i e, rf.lastIncludedIndex < i → rf.entry i = some e → P i e

/-- A restart finds the log. -/
structure LogSaved (rf : Raft n C D) : Prop where
  log : rf.persister.saved.log = rf.log
  index : rf.persister.saved.lastIncludedIndex = rf.lastIncludedIndex

namespace EachEntry

theorem mono (h : rf.EachEntry P) (hPQ : ∀ i e, P i e → Q i e) : rf.EachEntry Q :=
  fun i e hi he => hPQ i e (h i e hi he)

/-- Only the log matters. -/
theorem congr (h : rf.EachEntry P) (hlog : rf'.log = rf.log)
    (hbase : rf'.lastIncludedIndex = rf.lastIncludedIndex) : rf'.EachEntry P := by
  intro i e hi he
  rw [hbase] at hi
  rw [entry, logIndex, hlog, hbase] at he
  exact h i e hi he

/-- A log that is cut behind its new sentinel. -/
theorem cut (h : rf.EachEntry P) {j : ℤ} {e : LogEntry C} {rest : List (LogEntry C)}
    (hj : rf.lastIncludedIndex ≤ j) (hrest : rf.entriesFrom (j + 1) = some rest)
    (hlog : rf'.log = e :: rest) (hbase : rf'.lastIncludedIndex = j) : rf'.EachEntry P := by
  intro i e' hi he
  rw [hbase] at hi
  rw [entry_kept rf hrest hlog hbase hi] at he
  exact h i e' (hj.trans_lt hi) he

/-- A log that has nothing but its sentinel. -/
theorem sentinel {e : LogEntry C} (hlog : rf'.log = [e]) : rf'.EachEntry P := by
  intro i e' hi he
  have hle := (bounds_of_entry he).2
  rw [lastLogIndex, hlog, List.length_singleton] at hle
  omega

/-- A log that goes on with entries that meet `P`. -/
theorem append (h : rf.EachEntry P) {p : ℤ} {kept es : List (LogEntry C)}
    (hkept : rf.entriesTo p = some kept)
    (hes : ∀ (m : ℕ) (e : LogEntry C), es[m]? = some e → P (p + 1 + m) e)
    (hlog : rf'.log = kept ++ es) (hbase : rf'.lastIncludedIndex = rf.lastIncludedIndex) :
    rf'.EachEntry P := by
  intro i e hi he
  rw [hbase] at hi
  have hlen := slice_length hkept
  rw [entry_eq_getElem? (by omega), hlog, hbase] at he
  unfold logIndex at hlen
  obtain hip | hip := le_or_gt i p
  · -- the entry has been kept
    rw [List.getElem?_append_left (by omega)] at he
    obtain ⟨-, -, hget⟩ := slice_getElem? hkept he
    refine h i e hi ?_
    rw [entry_eq_getElem? hi.le, ← hget, Int.toNat_zero, Nat.zero_add]
  · rw [List.getElem?_append_right (by omega)] at he
    have hP := hes _ e he
    have hidx : p + 1 + (((i - rf.lastIncludedIndex).toNat - kept.length : ℕ) : ℤ) = i := by omega
    rwa [hidx] at hP

theorem requestVoteTerm (h : rf.EachEntry P) (args : RequestVoteArgs) :
    (rf.requestVoteTerm args).EachEntry P := by
  unfold Raft.requestVoteTerm
  split
  · exact h.congr rfl rfl
  · exact h

theorem requestVote (h : rf.EachEntry P) {args : RequestVoteArgs} {reply : RequestVoteReply}
    (hrun : rf.requestVote args = some (rf', reply)) : rf'.EachEntry P := by
  unfold Raft.requestVote at hrun
  split at hrun
  · cases hrun
    exact h
  have hterm := h.requestVoteTerm args
  unfold requestVoteRest at hrun
  split at hrun
  · obtain ⟨e, -, hrun⟩ := Option.bind_eq_some_iff.mp hrun
    split at hrun
    · cases hrun
      exact hterm.congr rfl rfl
    · cases hrun
      exact hterm
  · cases hrun
    exact hterm

theorem appendEntriesTerm (h : rf.EachEntry P) (args : AppendEntriesArgs C) :
    (rf.appendEntriesTerm args).EachEntry P := by
  unfold Raft.appendEntriesTerm
  split
  · exact h.congr rfl rfl
  · exact h

theorem appendEntries (h : rf.EachEntry P) {args : AppendEntriesArgs C}
    {reply : AppendEntriesReply}
    (hes : ∀ (m : ℕ) (e : LogEntry C), args.entries[m]? = some e → P (args.prevLogIndex + 1 + m) e)
    (hrun : rf.appendEntries args = some (rf', reply)) : rf'.EachEntry P := by
  unfold Raft.appendEntries at hrun
  split at hrun
  · cases hrun
    exact h
  have hterm : { rf.appendEntriesTerm args with currentRole := .follower }.EachEntry P :=
    (h.appendEntriesTerm args).congr rfl rfl
  unfold appendEntriesRest at hrun
  split at hrun
  · cases hrun
    exact hterm
  split at hrun
  · cases hrun
    exact hterm
  obtain ⟨e, -, hrun⟩ := Option.bind_eq_some_iff.mp hrun
  split at hrun
  · cases hrun
    exact hterm
  obtain ⟨rf₁, hnew, hrun⟩ := Option.bind_eq_some_iff.mp hrun
  cases hrun
  obtain ⟨kept, hkept, hnew⟩ := Option.bind_eq_some_iff.mp hnew
  cases hnew
  exact hterm.append hkept hes rfl rfl

theorem installSnapshot (h : rf.EachEntry P) {args : InstallSnapshotArgs D}
    {reply : InstallSnapshotReply} (hrun : rf.installSnapshot args = some (rf', reply)) :
    rf'.EachEntry P := by
  unfold Raft.installSnapshot at hrun
  split at hrun
  · cases hrun
    exact h
  split at hrun
  · cases hrun
    exact h.congr rfl rfl
  rename_i hlt
  obtain ⟨rf₁, hnew, hrun⟩ := Option.map_eq_some_iff.mp hrun
  cases hrun
  obtain ⟨rest, hrest, rfl⟩ := Option.map_eq_some_iff.mp hnew
  obtain ⟨keep, -, hrest⟩ := Option.bind_eq_some_iff.mp hrest
  cases keep with
  | true => exact h.cut (not_le.mp hlt).le hrest rfl rfl
  | false =>
    cases hrest
    exact .sentinel rfl

/-- The entry of a call of `Start`, if the peer leads. -/
theorem start (h : rf.EachEntry P) (command : Option C)
    (hnew : rf.currentRole = .leader → P (rf.lastLogIndex + 1) ⟨rf.currentTerm, command⟩) :
    (rf.start command).1.EachEntry P := by
  unfold Raft.start
  split
  · exact h
  rename_i hleads
  have hkept : rf.entriesTo rf.lastLogIndex = some rf.log := by
    have hlen : rf.logIndex rf.lastLogIndex + 1 = (rf.log.length : ℕ) := by
      unfold logIndex lastLogIndex
      ring
    rw [entriesTo, hlen, slice_isPrefix le_rfl, List.take_length]
  refine h.append hkept (fun m e he => ?_) rfl rfl
  rw [List.getElem?_singleton] at he
  split at he
  · rename_i hm
    cases he
    rw [hm, Nat.cast_zero, add_zero]
    exact hnew (not_not.mp hleads)
  · cases he

theorem doSnapshot (h : rf.EachEntry P) {index : ℤ} {data : Option D}
    (hrun : rf.doSnapshot index data = some rf') : rf'.EachEntry P := by
  unfold Raft.doSnapshot at hrun
  split at hrun
  · cases hrun
    exact h
  · rename_i hin
    obtain ⟨e, -, hrun⟩ := Option.bind_eq_some_iff.mp hrun
    obtain ⟨rest, hrest, hrun⟩ := Option.bind_eq_some_iff.mp hrun
    cases hrun
    have hlt : rf.lastIncludedIndex < index := by
      by_contra hle
      exact hin (.inl (not_lt.mp hle))
    exact h.cut hlt.le hrest rfl rfl

theorem startElection (h : rf.EachEntry P) {args : RequestVoteArgs}
    (hrun : rf.startElection = some (rf', args)) : rf'.EachEntry P := by
  unfold Raft.startElection Raft.electionIn at hrun
  split at hrun
  · cases hrun
  · obtain ⟨e, -, hrun⟩ := Option.bind_eq_some_iff.mp hrun
    cases hrun
    exact h.congr rfl rfl

theorem voteReply (h : rf.EachEntry P) (count : ℕ) (args : RequestVoteArgs)
    (reply : RequestVoteReply) : (rf.voteReply count args reply).1.EachEntry P := by
  unfold Raft.voteReply
  split
  · exact h.congr rfl rfl
  split
  · exact h
  generalize (if reply.voteGranted = true then count + 1 else count) = count'
  dsimp only
  split
  · exact h.congr rfl rfl
  · exact h

theorem appendReply (h : rf.EachEntry P) {target : Fin n} {args : AppendEntriesArgs C}
    {reply : AppendEntriesReply} (hrun : rf.appendReply target args reply = some rf') :
    rf'.EachEntry P := by
  unfold Raft.appendReply at hrun
  split at hrun
  · cases hrun
    exact h.congr rfl rfl
  split at hrun
  · cases hrun
    exact h
  split at hrun
  · obtain ⟨i, -, hrun⟩ := Option.bind_eq_some_iff.mp hrun
    cases hrun
    exact h.congr rfl rfl
  · unfold retreat at hrun
    split at hrun
    · cases hrun
      exact h.congr rfl rfl
    · obtain ⟨i, -, hrun⟩ := Option.bind_eq_some_iff.mp hrun
      cases hrun
      exact h.congr rfl rfl

theorem snapshotReply (h : rf.EachEntry P) (target : Fin n) (args : InstallSnapshotArgs D)
    (reply : InstallSnapshotReply) : (rf.snapshotReply target args reply).EachEntry P := by
  unfold Raft.snapshotReply
  split
  · exact h.congr rfl rfl
  split
  · exact h
  · exact h.congr rfl rfl

theorem applier (h : rf.EachEntry P) {out : List (Outgoing C)}
    (hrun : rf.applier = some (rf', out)) : rf'.EachEntry P := by
  unfold Raft.applier at hrun
  split at hrun
  · cases hrun
    exact h.congr rfl rfl
  split at hrun
  · obtain ⟨es, -, hrun⟩ := Option.bind_eq_some_iff.mp hrun
    cases hrun
    exact h.congr rfl rfl
  · cases hrun
    exact h

end EachEntry

/-! ## Restarts and requests -/

theorem make_log (v : Fin n) (ps : Persister C D) : (make v ps).log = ps.saved.log ∧
    (make v ps).lastIncludedIndex = ps.saved.lastIncludedIndex := by
  rw [make_eq]
  exact ⟨rfl, rfl⟩

theorem EachEntry.make (h : rf.EachEntry P) (hsaved : rf.LogSaved) (v : Fin n) :
    (make v rf.persister).EachEntry P := by
  obtain ⟨hlog, hbase⟩ := make_log v rf.persister
  exact h.congr (hlog.trans hsaved.log) (hbase.trans hsaved.index)

/-- A restart in the middle of a request. -/
theorem EachEntry.serveTerm (h : rf.EachEntry P) (r : Rpc C D) : (rf.serveTerm r).EachEntry P := by
  cases r with
  | vote e args => exact h.requestVoteTerm args
  | append args => exact h.appendEntriesTerm args
  | snapshot args => exact h

theorem LogSaved.serveTerm (h : rf.LogSaved) (r : Rpc C D) : (rf.serveTerm r).LogSaved := by
  cases r with
  | vote e args =>
    unfold Raft.serveTerm requestVoteTerm
    dsimp only
    split
    · exact ⟨rfl, rfl⟩
    · exact h
  | append args =>
    unfold Raft.serveTerm appendEntriesTerm
    dsimp only
    split
    · exact ⟨rfl, rfl⟩
    · exact h
  | snapshot args => exact h

end Raft

variable (P) in
/-- The entries that a request carries. -/
def Rpc.EachEntry : Rpc C D → Prop
  | .append args =>
    ∀ (m : ℕ) (e : LogEntry C), args.entries[m]? = some e → P (args.prevLogIndex + 1 + m) e
  | _ => True

namespace Raft.EachEntry

variable {rf rf' : Raft n C D}

theorem serve (h : rf.EachEntry P) {r : Rpc C D} {answer : Answer C D} (hr : r.EachEntry P)
    (hrun : rf.serve r = some (rf', answer)) : rf'.EachEntry P := by
  cases r with
  | vote e args =>
    obtain ⟨⟨rf₁, reply⟩, hvote, hout⟩ := Option.map_eq_some_iff.mp hrun
    cases hout
    exact h.requestVote hvote
  | append args =>
    obtain ⟨⟨rf₁, reply⟩, happend, hout⟩ := Option.map_eq_some_iff.mp hrun
    cases hout
    exact h.appendEntries hr happend
  | snapshot args =>
    obtain ⟨⟨rf₁, reply⟩, hinstall, hout⟩ := Option.map_eq_some_iff.mp hrun
    cases hout
    exact h.installSnapshot hinstall

/-- What a leader sends stands in its log. -/
theorem heartbeatTo (h : rf.EachEntry P) {j : Fin n} {m : Heartbeat C D}
    (hrun : rf.heartbeatTo j = some m) : m.rpc.EachEntry P := by
  unfold Raft.heartbeatTo at hrun
  split at hrun
  · cases hrun
    trivial
  · rename_i hnext
    obtain ⟨prev, -, hrun⟩ := Option.bind_eq_some_iff.mp hrun
    obtain ⟨es, hes, hrun⟩ := Option.bind_eq_some_iff.mp hrun
    cases hrun
    intro i e he
    obtain ⟨-, -, hget⟩ := slice_getElem? hes he
    change P (rf.nextIndex j - 1 + 1 + i) e
    unfold logIndex at hget
    refine h _ e (by omega) ?_
    rw [entry_eq_getElem? (by omega), ← hget]
    congr 1
    omega

end Raft.EachEntry

/-! ## The cluster -/

namespace Cluster

variable {s s' : Cluster n C D} {x : Action n C D}

variable (P) in
structure EachEntry (s : Cluster n C D) : Prop where
  log : ∀ i, (s.proc i).raft.EachEntry P
  request : ∀ q ∈ s.requests, q.body.EachEntry P

namespace EachEntry

theorem mono (h : s.EachEntry P) (hPQ : ∀ i e, P i e → Q i e) : s.EachEntry Q where
  log i := (h.log i).mono hPQ
  request q hq := by
    have hq := h.request q hq
    cases hb : q.body with
    | append args =>
      rw [hb] at hq
      exact fun m e he => hPQ _ e (hq m e he)
    | _ => trivial

theorem initial : (Cluster.initial : Cluster n C D).EachEntry P where
  log _ := .sentinel rfl
  request _ hq := absurd hq List.not_mem_nil

/-- One peer goes on, and nothing is sent. -/
theorem setProc (h : s.EachEntry P) {i : Fin n} {p : Proc n C D} (hp : p.raft.EachEntry P)
    (hproc : s'.proc = Function.update s.proc i p) (hrequests : s'.requests ⊆ s.requests) :
    s'.EachEntry P where
  log j := by
    rw [hproc]
    by_cases hj : j = i
    · subst hj
      rw [Function.update_self]
      exact hp
    · rw [Function.update_of_ne hj]
      exact h.log j
  request q hq := h.request q (hrequests hq)

/-- What holds of the entries that `Start` makes holds of all. -/
theorem step (h : s.EachEntry P) (hsaved : ∀ i, (s.proc i).raft.LogSaved)
    (hnew : ∀ i command, x = .start i command → (s.proc i).raft.currentRole = .leader →
      P ((s.proc i).raft.lastLogIndex + 1) ⟨(s.proc i).raft.currentTerm, command⟩)
    (hs : s.step x = some s') : s'.EachEntry P := by
  cases x with
  | timeout i =>
    obtain ⟨⟨rf, args⟩, hrun, hs⟩ := Option.bind_eq_some_iff.mp hs
    cases hs
    have h' : (s.setProc i { s.proc i with
        raft := rf, voteCounts := (s.proc i).voteCounts ++ [1] }).EachEntry P :=
      h.setProc ((h.log i).startElection hrun) rfl (List.Subset.refl _)
    refine ⟨h'.log, fun q hq => ?_⟩
    obtain hq | hq := List.mem_append.mp hq
    · exact h.request q hq
    · obtain ⟨j, -, rfl⟩ := List.mem_map.mp hq
      trivial
  | heartbeat i =>
    obtain ⟨ms, hrun, hs⟩ := Option.bind_eq_some_iff.mp hs
    cases hs
    refine ⟨h.log, fun q hq => ?_⟩
    obtain hq | hq := List.mem_append.mp hq
    · exact h.request q hq
    · obtain ⟨m, hm, rfl⟩ := List.mem_map.mp hq
      unfold Raft.heartbeat at hrun
      split at hrun
      · cases hrun
      obtain ⟨j, -, hj⟩ := mem_of_mapM hrun hm
      obtain ⟨b, hb, rfl⟩ := Option.map_eq_some_iff.mp hj
      exact (h.log i).heartbeatTo hb
  | start i command =>
    cases hs
    exact h.setProc (p := { s.proc i with raft := ((s.proc i).raft.start command).1 })
      ((h.log i).start command (hnew i command rfl)) rfl (List.Subset.refl _)
  | snapshot i index data =>
    obtain ⟨rf, hrun, rfl⟩ := Option.map_eq_some_iff.mp hs
    exact h.setProc (p := { s.proc i with raft := rf }) ((h.log i).doSnapshot hrun) rfl
      (List.Subset.refl _)
  | handle k =>
    obtain ⟨q, hq, hs⟩ := Option.bind_eq_some_iff.mp hs
    obtain ⟨⟨rf, answer⟩, hrun, hs⟩ := Option.bind_eq_some_iff.mp hs
    cases hs
    have hserve := (h.log q.target).serve (h.request q (List.mem_of_getElem? hq)) hrun
    exact h.setProc (p := { s.proc q.target with raft := rf }) hserve rfl
      List.eraseIdx_subset
  | deliver k =>
    obtain ⟨q, hq, hs⟩ := Option.bind_eq_some_iff.mp hs
    split at hs
    case isFalse => cases hs
    obtain ⟨⟨p, won⟩, hrec, hs⟩ := Option.bind_eq_some_iff.mp hs
    cases hs
    refine h.setProc (i := q.source) (p := p) ?_ rfl (List.Subset.refl _)
    have hlog := h.log q.source
    generalize q.body = b at hrec
    cases b with
    | vote e args reply =>
      cases hrec
      exact hlog.voteReply _ args reply
    | append args reply =>
      obtain ⟨rf, hrf, hrec⟩ := Option.map_eq_some_iff.mp hrec
      cases hrec
      exact hlog.appendReply hrf
    | snapshot args reply =>
      cases hrec
      exact hlog.snapshotReply q.target args reply
  | loseRequest k =>
    cases hs
    exact ⟨h.log, fun q hq => h.request q (List.mem_of_mem_eraseIdx hq)⟩
  | loseReply k =>
    cases hs
    exact ⟨h.log, h.request⟩
  | apply i =>
    simp only [Cluster.step, Cluster.apply] at hs
    split at hs
    case isFalse => cases hs
    obtain ⟨⟨rf, out⟩, hrun, rfl⟩ := Option.map_eq_some_iff.mp hs
    exact h.setProc (p := { s.proc i with raft := rf, applying := out }) ((h.log i).applier hrun) rfl
      (List.Subset.refl _)
  | send i =>
    simp only [Cluster.step, Cluster.send] at hs
    split at hs
    · cases hs
    · rename_i m rest happlying
      cases hs
      exact h.setProc (p := { s.proc i with applying := rest }) (h.log i) rfl (List.Subset.refl _)
  | restart i =>
    cases hs
    exact h.setProc (i := i) ((h.log i).make (hsaved i) _) rfl (List.Subset.refl _)
  | crashIn k =>
    obtain ⟨q, hq, hs⟩ := Option.bind_eq_some_iff.mp hs
    cases hs
    exact h.setProc (i := q.target)
      (((h.log q.target).serveTerm q.body).make ((hsaved q.target).serveTerm q.body) _) rfl
      List.eraseIdx_subset

end EachEntry

end Cluster

end CollabIde
