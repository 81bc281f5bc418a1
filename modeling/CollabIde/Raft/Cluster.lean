import CollabIde.Lib.Run
import CollabIde.Raft.Handlers

/-!
# A cluster of Raft peers on a lossy network

The peers, the requests and replies in flight (any order; a request is handled at most once and a
reply delivered at most once, as each is removed), and what has happened: the messages sent on the
`applyChan`s and the elections won. A peer can crash at any point and restarts through `Make` from
what its persister holds; the goroutines of its earlier life are gone, so their replies are not
delivered (`epoch` counts the lives).

Three conditions on a step are used by the theorems about runs:

* `Cluster.FreshTerm`: a reply that makes the peer step down carries a term later than the peer's,
  or changes nothing of its vote.
* `Cluster.KeepsEntries`: an accepted `AppendEntries` drops no entry of the leader that sent it.
* `Cluster.SnapshotApplied`: `Snapshot` is called on an applied index.
-/

namespace CollabIde

open Raft (Outgoing Heartbeat)

/-- A request. A vote request belongs to one of the elections of its sender. -/
inductive Rpc (C D : Type) where
  | vote (election : ℕ) (args : RequestVoteArgs)
  | append (args : AppendEntriesArgs C)
  | snapshot (args : InstallSnapshotArgs D)

/-- A reply, with the arguments that the waiting goroutine has. -/
inductive Answer (C D : Type) where
  | vote (election : ℕ) (args : RequestVoteArgs) (reply : RequestVoteReply)
  | append (args : AppendEntriesArgs C) (reply : AppendEntriesReply)
  | snapshot (args : InstallSnapshotArgs D) (reply : InstallSnapshotReply)

namespace Answer

variable {C D : Type}

/-- The term of the arguments: the term that the goroutine captured. -/
def argsTerm : Answer C D → ℤ
  | .vote _ args _ => args.term
  | .append args _ => args.term
  | .snapshot args _ => args.term

def replyTerm : Answer C D → ℤ
  | .vote _ _ reply => reply.term
  | .append _ reply => reply.term
  | .snapshot _ reply => reply.term

end Answer

/-- A message in flight, of the call of `source` (in its life `epoch`) to `target`. -/
structure Envelope (n : ℕ) (M : Type) where
  source : Fin n
  target : Fin n
  epoch : ℕ
  body : M

/-- A peer with what its goroutines keep: `voteCount` of each election it has started, and what
its applier has still to send. -/
structure Proc (n : ℕ) (C D : Type) where
  raft : Raft n C D
  epoch : ℕ
  voteCounts : List ℕ
  applying : List (Outgoing C)

structure Cluster (n : ℕ) (C D : Type) where
  proc : Fin n → Proc n C D
  requests : List (Envelope n (Rpc C D))
  replies : List (Envelope n (Answer C D))
  sent : List (Fin n × ApplyMsg C D)
  wins : List (Fin n × ℤ)

inductive Action (n : ℕ) (C D : Type) where
  | timeout (i : Fin n)
  | heartbeat (i : Fin n)
  | start (i : Fin n) (command : Option C)
  | snapshot (i : Fin n) (index : ℤ) (data : Option D)
  | handle (k : ℕ)
  | deliver (k : ℕ)
  | loseRequest (k : ℕ)
  | loseReply (k : ℕ)
  | apply (i : Fin n)
  | send (i : Fin n)
  | restart (i : Fin n)
  /-- The peer handles a request and crashes after the first `persist`. -/
  | crashIn (k : ℕ)

variable {n : ℕ} {C D : Type}

def Raft.Heartbeat.rpc : Heartbeat C D → Rpc C D
  | .append args => .append args
  | .snapshot args => .snapshot args

namespace Raft

/-- The handler of a request. -/
def serve (rf : Raft n C D) : Rpc C D → Option (Raft n C D × Answer C D)
  | .vote e args => (rf.requestVote args).map fun r => (r.1, .vote e args r.2)
  | .append args => (rf.appendEntries args).map fun r => (r.1, .append args r.2)
  | .snapshot args => (rf.installSnapshot args).map fun r => (r.1, .snapshot args r.2)

/-- The handler up to its first `persist`, if another one follows. -/
def serveTerm (rf : Raft n C D) : Rpc C D → Raft n C D
  | .vote _ args => rf.requestVoteTerm args
  | .append args => rf.appendEntriesTerm args
  | .snapshot _ => rf

end Raft

namespace Proc

def initial (i : Fin n) : Proc n C D := ⟨.make i ⟨none, none⟩, 0, [], []⟩

/-- After a crash: `Make` with what the persister holds. -/
def restart (p : Proc n C D) : Proc n C D :=
  { p with raft := .make p.raft.me p.raft.persister, epoch := p.epoch + 1, applying := [] }

/-- A reply reaches the goroutine that waits for it: the new state, and whether the peer has
become the leader. -/
def receive (p : Proc n C D) (target : Fin n) : Answer C D → Option (Proc n C D × Bool)
  | .vote e args reply =>
    let r := p.raft.voteReply (p.voteCounts.getD e 0) args reply
    some ({ p with raft := r.1, voteCounts := p.voteCounts.set e r.2.1 }, r.2.2)
  | .append args reply =>
    (p.raft.appendReply target args reply).map fun rf => ({ p with raft := rf }, false)
  | .snapshot args reply => some ({ p with raft := p.raft.snapshotReply target args reply }, false)

end Proc

namespace Cluster

def initial : Cluster n C D := ⟨Proc.initial, [], [], [], []⟩

variable (s : Cluster n C D)

/-- The state with `p` for peer `i`. -/
def setProc (i : Fin n) (p : Proc n C D) : Cluster n C D :=
  { s with proc := Function.update s.proc i p }

def setRaft (i : Fin n) (rf : Raft n C D) : Cluster n C D :=
  s.setProc i { s.proc i with raft := rf }

def others (i : Fin n) : List (Fin n) := (List.finRange n).filter (· ≠ i)

def timeout (i : Fin n) : Option (Cluster n C D) := do
  let p := s.proc i
  let (rf, args) ← p.raft.startElection
  let s := s.setProc i { p with raft := rf, voteCounts := p.voteCounts ++ [1] }
  some { s with
    requests := s.requests ++
      (others i).map fun j => ⟨i, j, p.epoch, .vote p.voteCounts.length args⟩ }

def heartbeat (i : Fin n) : Option (Cluster n C D) := do
  let p := s.proc i
  let sends ← p.raft.heartbeat
  some { s with
    requests := s.requests ++ sends.map fun m => ⟨i, m.1, p.epoch, m.2.rpc⟩ }

def handle (k : ℕ) : Option (Cluster n C D) := do
  let q ← s.requests[k]?
  let (rf, answer) ← (s.proc q.target).raft.serve q.body
  let s := s.setRaft q.target rf
  some { s with
    requests := s.requests.eraseIdx k
    replies := s.replies ++ [⟨q.source, q.target, q.epoch, answer⟩] }

def deliver (k : ℕ) : Option (Cluster n C D) := do
  let q ← s.replies[k]?
  if q.epoch = (s.proc q.source).epoch then do
    let (p, won) ← (s.proc q.source).receive q.target q.body
    let s := s.setProc q.source p
    some { s with
      replies := s.replies.eraseIdx k
      wins := if won then s.wins ++ [(q.source, p.raft.currentTerm)] else s.wins }
  else none

def apply (i : Fin n) : Option (Cluster n C D) :=
  let p := s.proc i
  if p.applying = [] then
    p.raft.applier.map fun r => s.setProc i { p with raft := r.1, applying := r.2 }
  else none

def send (i : Fin n) : Option (Cluster n C D) :=
  let p := s.proc i
  match p.applying with
  | [] => none
  | m :: rest =>
    let s := s.setProc i { p with applying := rest }
    some { s with sent := s.sent ++ [(i, p.raft.applyMsg m)] }

def crashIn (k : ℕ) : Option (Cluster n C D) := do
  let q ← s.requests[k]?
  let p := s.proc q.target
  let s := s.setProc q.target { p with raft := p.raft.serveTerm q.body }.restart
  some { s with requests := s.requests.eraseIdx k }

def step : Action n C D → Option (Cluster n C D)
  | .timeout i => s.timeout i
  | .heartbeat i => s.heartbeat i
  | .start i command => some (s.setRaft i ((s.proc i).raft.start command).1)
  | .snapshot i index data => ((s.proc i).raft.doSnapshot index data).map (s.setRaft i)
  | .handle k => s.handle k
  | .deliver k => s.deliver k
  | .loseRequest k => some { s with requests := s.requests.eraseIdx k }
  | .loseReply k => some { s with replies := s.replies.eraseIdx k }
  | .apply i => s.apply i
  | .send i => s.send i
  | .restart i => some (s.setProc i (s.proc i).restart)
  | .crashIn k => s.crashIn k

variable (n C D) in
/-- The cluster as a machine. -/
def machine : Machine (Cluster n C D) (Action n C D) where
  init s := s = initial
  step := step

end Cluster

/-! ## Conditions on a step -/

/-- The reply that is delivered. -/
def Action.delivered : Action n C D → Option ℕ
  | .deliver k => some k
  | _ => none

/-- The request that is handled. -/
def Action.handled : Action n C D → Option ℕ
  | .handle k => some k
  | _ => none

/-- The peer and the index of a call of `Snapshot`. -/
def Action.snapshotted : Action n C D → Option (Fin n × ℤ)
  | .snapshot i index _ => some (i, index)
  | _ => none

def Rpc.appendArgs : Rpc C D → Option (AppendEntriesArgs C)
  | .append args => some args
  | _ => none

namespace Raft

variable (rf : Raft n C D)

/-- `AppendEntries` with these arguments changes the log. -/
def Accepts (args : AppendEntriesArgs C) : Prop :=
  rf.currentTerm ≤ args.term ∧ rf.lastIncludedIndex ≤ args.prevLogIndex ∧
    args.prevLogIndex ≤ rf.lastLogIndex ∧
    (rf.entry args.prevLogIndex).map LogEntry.term = some args.prevLogTerm

instance (args : AppendEntriesArgs C) : Decidable (rf.Accepts args) :=
  inferInstanceAs (Decidable (_ ∧ _))

/-- The entries that stand behind all that `AppendEntries` brings. -/
def behind (args : AppendEntriesArgs C) : List (LogEntry C) :=
  rf.log.drop (rf.logIndex args.prevLogIndex + 1 + args.entries.length).toNat

/-- If it changes the log, none of the entries behind the new ones has the term of the request. -/
def KeepsEntries (args : AppendEntriesArgs C) : Prop :=
  rf.Accepts args → ∀ e ∈ rf.behind args, e.term ≠ args.term

instance (args : AppendEntriesArgs C) : Decidable (rf.KeepsEntries args) :=
  inferInstanceAs (Decidable (_ → _))

end Raft

namespace Cluster

variable (s : Cluster n C D) (x : Action n C D)

/-- A reply that makes the peer step down carries a term later than the peer's, or the peer's term
in which it has no vote. -/
def FreshTerm : Prop :=
  ∀ k ∈ x.delivered, ∀ q ∈ s.replies[k]?, q.epoch = (s.proc q.source).epoch →
    q.body.argsTerm < q.body.replyTerm → (s.proc q.source).raft.Fresh q.body.replyTerm

/-- An accepted `AppendEntries` drops no entry of the leader that sent it. -/
def KeepsEntries : Prop :=
  ∀ k ∈ x.handled, ∀ q ∈ s.requests[k]?, ∀ args ∈ q.body.appendArgs,
    (s.proc q.target).raft.KeepsEntries args

/-- `Snapshot` is called on an applied index. -/
def SnapshotApplied : Prop :=
  ∀ c ∈ x.snapshotted, c.2 ≤ (s.proc c.1).raft.lastApplied

instance : Decidable (s.FreshTerm x) := inferInstanceAs (Decidable (∀ k ∈ _, _))
instance : Decidable (s.KeepsEntries x) := inferInstanceAs (Decidable (∀ k ∈ _, _))
instance : Decidable (s.SnapshotApplied x) := inferInstanceAs (Decidable (∀ k ∈ _, _))

end Cluster

end CollabIde
