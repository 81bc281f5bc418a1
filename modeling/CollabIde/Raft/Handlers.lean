import CollabIde.Raft.Types

/-!
# What a Raft peer does

The functions of `raft.go`, each from the lock to the unlock of `rf.mu`. `none` is an index or a
slice bound outside the entries the log holds. The first `persist` of `RequestVote` and
`AppendEntries` is a function of its own (`requestVoteTerm`, `appendEntriesTerm`), as a crash can
come right after it.
-/

namespace CollabIde.Raft

variable {n : ℕ} {C D : Type} (rf : Raft n C D)

/-! ## Calls of the service -/

/-- `Snapshot`. -/
def doSnapshot (index : ℤ) (snapshot : Option D) : Option (Raft n C D) :=
  if index ≤ rf.lastIncludedIndex ∨ (rf.log.length : ℤ) ≤ rf.logIndex index then some rf
  else do
    let e ← rf.entry index
    let rest ← rf.entriesFrom (index + 1)
    some { rf with
      lastIncludedTerm := e.term, lastIncludedIndex := index
      log := LogEntry.mk e.term none :: rest, snapshot := snapshot }.persist

/-- `Start`: the new state, the index, the term and whether the peer leads. -/
def start (command : Option C) : Raft n C D × ℤ × ℤ × Bool :=
  if rf.currentRole ≠ .leader then (rf, -1, rf.currentTerm, false)
  else
    ({ rf with log := rf.log ++ [LogEntry.mk rf.currentTerm command] }.persist, rf.lastLogIndex + 1,
      rf.currentTerm, true)

/-! ## Requests -/

/-- Whether the log has the snapshot's last entry. -/
def hasSnapshot (args : InstallSnapshotArgs D) : Option Bool :=
  if args.lastIncludedIndex ≤ rf.lastLogIndex then
    (rf.entry args.lastIncludedIndex).map fun e => decide (e.term = args.lastIncludedTerm)
  else some false

/-- The entries that are kept behind the snapshot. -/
def afterSnapshot (args : InstallSnapshotArgs D) : Option (List (LogEntry C)) := do
  let keep ← rf.hasSnapshot args
  if keep then rf.entriesFrom (args.lastIncludedIndex + 1) else some []

/-- The end of `InstallSnapshot`: the snapshot replaces the log up to its last entry. -/
def installNew (args : InstallSnapshotArgs D) : Option (Raft n C D) :=
  (rf.afterSnapshot args).map fun rest =>
    { rf with
      log := LogEntry.mk args.lastIncludedTerm none :: rest
      lastIncludedIndex := args.lastIncludedIndex
      lastIncludedTerm := args.lastIncludedTerm
      snapshot := args.data
      commitIndex := if rf.commitIndex < args.lastIncludedIndex then args.lastIncludedIndex
        else rf.commitIndex }.persist

/-- The state in which the peer follows the sender of a snapshot: a new term is not persisted. -/
def installSnapshotTerm (args : InstallSnapshotArgs D) : Raft n C D :=
  { rf with
    currentRole := .follower
    currentTerm := if rf.currentTerm < args.term then args.term else rf.currentTerm }

/-- A snapshot that is not newer than the peer's own is left. -/
def installSnapshot (args : InstallSnapshotArgs D) :
    Option (Raft n C D × InstallSnapshotReply) :=
  if args.term < rf.currentTerm then some (rf, ⟨rf.currentTerm⟩)
  else if args.lastIncludedIndex ≤ rf.lastIncludedIndex then
    some (rf.installSnapshotTerm args, ⟨args.term⟩)
  else ((rf.installSnapshotTerm args).installNew args).map fun rf => (rf, ⟨args.term⟩)

/-- `RequestVote` up to its first `persist`. -/
def requestVoteTerm (args : RequestVoteArgs) : Raft n C D :=
  if rf.currentTerm < args.term then
    { rf with currentTerm := args.term, currentRole := .follower, votedFor := -1 }.persist
  else rf

/-- `RequestVote` for a term that is not earlier, once `currentTerm` is that term. -/
def requestVoteRest (args : RequestVoteArgs) : Option (Raft n C D × RequestVoteReply) :=
  if rf.votedFor = -1 ∨ rf.votedFor = args.candidateId then do
    let last ← rf.entry rf.lastLogIndex
    if last.term < args.lastLogTerm ∨
        last.term = args.lastLogTerm ∧ rf.lastLogIndex ≤ args.lastLogIndex then
      some ({ rf with votedFor := args.candidateId }.persist, ⟨rf.currentTerm, true⟩)
    else some (rf, ⟨rf.currentTerm, false⟩)
  else some (rf, ⟨rf.currentTerm, false⟩)

def requestVote (args : RequestVoteArgs) : Option (Raft n C D × RequestVoteReply) :=
  if args.term < rf.currentTerm then some (rf, ⟨rf.currentTerm, false⟩)
  else (rf.requestVoteTerm args).requestVoteRest args

/-- `AppendEntries` up to its first `persist`. -/
def appendEntriesTerm (args : AppendEntriesArgs C) : Raft n C D :=
  if rf.currentTerm < args.term then
    { rf with currentTerm := args.term, votedFor := -1 }.persist
  else rf

/-- The index of the first entry of the log with the term, for the reply's `XIndex`. -/
def firstOfTerm (term : ℤ) : ℤ :=
  match rf.log.findIdx? fun e => e.term = term with
  | some i => i + rf.lastIncludedIndex
  | none => 0

/-- The end of `AppendEntries`: the log is cut after `PrevLogIndex` and gets the new entries. -/
def appendNew (args : AppendEntriesArgs C) : Option (Raft n C D) := do
  let kept ← rf.entriesTo args.prevLogIndex
  let rf := { rf with log := kept ++ args.entries }.persist
  some { rf with
    commitIndex := if rf.commitIndex < args.leaderCommit then
        if args.leaderCommit < rf.lastLogIndex then args.leaderCommit else rf.lastLogIndex
      else rf.commitIndex }

/-- `AppendEntries` for a term that is not earlier, once the peer follows it. -/
def appendEntriesRest (args : AppendEntriesArgs C) :
    Option (Raft n C D × AppendEntriesReply) :=
  if rf.lastLogIndex < args.prevLogIndex then
    some (rf, { term := rf.currentTerm, xLen := rf.lastLogIndex + 1, xIndex := -1, xTerm := -1 })
  else if args.prevLogIndex < rf.lastIncludedIndex then
    some (rf, {
      term := rf.currentTerm, xTerm := -1, xIndex := -1, xLen := rf.lastIncludedIndex + 1 })
  else do
    let prev ← rf.entry args.prevLogIndex
    if prev.term ≠ args.prevLogTerm then
      some (rf, {
        term := rf.currentTerm, xLen := rf.lastLogIndex + 1, xTerm := prev.term
        xIndex := rf.firstOfTerm prev.term })
    else
      let rf' ← rf.appendNew args
      some (rf', { term := rf.currentTerm, success := true })

def appendEntries (args : AppendEntriesArgs C) : Option (Raft n C D × AppendEntriesReply) :=
  if args.term < rf.currentTerm then some (rf, { term := rf.currentTerm })
  else { rf.appendEntriesTerm args with currentRole := .follower }.appendEntriesRest args

/-! ## Elections -/

/-- `ticker` when the election timeout has passed; `term` is what `rf.currentTerm++` gives. -/
def electionIn (term : ℤ) : Option (Raft n C D × RequestVoteArgs) :=
  if rf.currentRole = .leader then none
  else do
    let rf := { rf with
      currentRole := .candidate, currentTerm := term, votedFor := rf.me }.persist
    let last ← rf.entry rf.lastLogIndex
    some (rf, {
      term := rf.currentTerm, candidateId := rf.me
      lastLogIndex := rf.lastLogIndex, lastLogTerm := last.term })

/-- The election of a peer whose term does not run over. -/
def startElection : Option (Raft n C D × RequestVoteArgs) := rf.electionIn (rf.currentTerm + 1)

/-- The election of any peer. -/
def startElectionInt : Option (Raft n C D × RequestVoteArgs) :=
  rf.electionIn (wrap (rf.currentTerm + 1))

/-- A later term in a reply. -/
def stepDown (term : ℤ) : Raft n C D :=
  { rf with currentRole := .follower, currentTerm := term, votedFor := -1 }.persist

/-- A reply with the term `t` takes the peer forward, or changes nothing of its vote. -/
def Fresh (t : ℤ) : Prop := rf.currentTerm < t ∨ rf.currentTerm = t ∧ rf.votedFor = -1

instance (t : ℤ) : Decidable (rf.Fresh t) := inferInstanceAs (Decidable (_ ∨ _))

/-- The state of a peer that has just become the leader. -/
def becomeLeader : Raft n C D :=
  { rf with
    currentRole := .leader
    nextIndex := fun _ => rf.lastLogIndex + 1
    matchIndex := fun _ => 0 }

/-- The reply of a vote request: `args.term` is the term that the goroutine captured. The new
state, `voteCount`, and whether the peer has become the leader. -/
def voteReply (voteCount : ℕ) (args : RequestVoteArgs) (reply : RequestVoteReply) :
    Raft n C D × ℕ × Bool :=
  if args.term < reply.term then (rf.stepDown reply.term, voteCount, false)
  else if rf.currentTerm ≠ args.term ∨ rf.currentRole ≠ .candidate then (rf, voteCount, false)
  else
    let voteCount := if reply.voteGranted then voteCount + 1 else voteCount
    if n / 2 + 1 ≤ voteCount ∧ rf.currentRole ≠ .leader then (rf.becomeLeader, voteCount, true)
    else (rf, voteCount, false)

/-! ## The leader -/

/-- What a leader sends to a peer. -/
inductive Heartbeat (C D : Type) where
  | append (args : AppendEntriesArgs C)
  | snapshot (args : InstallSnapshotArgs D)

def heartbeatTo (i : Fin n) : Option (Heartbeat C D) :=
  if rf.nextIndex i ≤ rf.lastIncludedIndex then
    some (.snapshot {
      term := rf.currentTerm, leaderId := rf.me, lastIncludedIndex := rf.lastIncludedIndex
      lastIncludedTerm := rf.lastIncludedTerm, data := rf.snapshot })
  else do
    let prev ← rf.entry (rf.nextIndex i - 1)
    let entries ← rf.entriesFrom (rf.nextIndex i)
    some (.append {
      term := rf.currentTerm, leaderId := rf.me, prevLogIndex := rf.nextIndex i - 1
      prevLogTerm := prev.term, entries := entries, leaderCommit := rf.commitIndex })

/-- One round of `heartbeat`: a message for each other peer. -/
def heartbeat : Option (List (Fin n × Heartbeat C D)) :=
  if rf.currentRole ≠ .leader then none
  else ((List.finRange n).filter (· ≠ rf.me)).mapM fun i => (rf.heartbeatTo i).map (i, ·)

/-- The last index of an entry with the term `xTerm`, or -1, over the first `k` entries. -/
def lastXTermIndex (xTerm : ℤ) : ℕ → Option ℤ
  | 0 => some (-1)
  | k + 1 => do
    let e ← rf.entry (rf.lastIncludedIndex + k)
    if e.term = xTerm then some (rf.lastIncludedIndex + k) else lastXTermIndex xTerm k

/-- A failed append: a smaller `nextIndex`. -/
def retreat (targetNode : Fin n) (reply : AppendEntriesReply) : Option (Raft n C D) :=
  if reply.xTerm = -1 then
    some { rf with nextIndex := Function.update rf.nextIndex targetNode reply.xLen }
  else do
    let i ← rf.lastXTermIndex reply.xTerm rf.log.length
    some { rf with
      nextIndex := Function.update rf.nextIndex targetNode
        (if i = -1 then reply.xIndex else i + 1) }

/-- The leader itself and the peers known to have stored the entry at `i`. -/
def replicated (i : ℤ) : ℕ :=
  1 + (Finset.univ.filter fun j => j ≠ rf.me ∧ i ≤ rf.matchIndex j).card

/-- The commit loop of a leader, over the `k` entries after `commitIndex`. -/
def newCommitIndex (currentTerm : ℤ) : ℕ → Option ℤ
  | 0 => some rf.commitIndex
  | k + 1 => do
    let e ← rf.entry (rf.commitIndex + (k + 1))
    if e.term ≠ currentTerm then newCommitIndex currentTerm k
    else if n / 2 + 1 ≤ rf.replicated (rf.commitIndex + (k + 1)) then
      some (rf.commitIndex + (k + 1))
    else newCommitIndex currentTerm k

/-- A successful append: `nextIndex`, `matchIndex`, and the commit loop. -/
def advance (targetNode : Fin n) (args : AppendEntriesArgs C) : Option (Raft n C D) := do
  let last := args.prevLogIndex + args.entries.length
  let rf := { rf with
    nextIndex := Function.update rf.nextIndex targetNode (last + 1)
    matchIndex := Function.update rf.matchIndex targetNode last }
  let i ← rf.newCommitIndex args.term (rf.lastLogIndex - rf.commitIndex).toNat
  some { rf with commitIndex := i }

/-- The reply of an append request. -/
def appendReply (targetNode : Fin n) (args : AppendEntriesArgs C) (reply : AppendEntriesReply) :
    Option (Raft n C D) :=
  if args.term < reply.term then some (rf.stepDown reply.term)
  else if rf.currentTerm ≠ args.term ∨ rf.currentRole ≠ .leader then some rf
  else if reply.success then rf.advance targetNode args
  else rf.retreat targetNode reply

/-- The reply of a snapshot request. -/
def snapshotReply (targetNode : Fin n) (args : InstallSnapshotArgs D)
    (reply : InstallSnapshotReply) : Raft n C D :=
  if args.term < reply.term then rf.stepDown reply.term
  else if rf.currentTerm ≠ args.term ∨ rf.currentRole ≠ .leader then rf
  else
    { rf with
      nextIndex := Function.update rf.nextIndex targetNode (args.lastIncludedIndex + 1)
      matchIndex := Function.update rf.matchIndex targetNode args.lastIncludedIndex }

/-! ## The applier -/

/-- What the applier sends next: the snapshot, which it reads when it sends it, or a command. -/
inductive Outgoing (C : Type) where
  | snapshot
  | command (command : Option C) (index : ℤ)

/-- One round of `applier` under the lock. -/
def applier : Option (Raft n C D × List (Outgoing C)) :=
  if rf.lastApplied < rf.lastIncludedIndex then
    some ({ rf with lastApplied := rf.lastIncludedIndex }, [.snapshot])
  else if rf.lastApplied < rf.commitIndex then do
    let applyEntries ← slice rf.log (rf.logIndex (rf.lastApplied + 1))
      (rf.logIndex rf.commitIndex + 1)
    some ({ rf with lastApplied := rf.commitIndex },
      applyEntries.mapIdx fun i e => .command e.command (rf.lastApplied + 1 + i))
  else some (rf, [])

/-- The message that is sent. -/
def applyMsg : Outgoing C → ApplyMsg C D
  | .snapshot => {
      snapshotValid := true, snapshot := rf.snapshot, snapshotIndex := rf.lastIncludedIndex
      snapshotTerm := rf.lastIncludedTerm }
  | .command c i => { commandValid := true, command := c, commandIndex := i }

end CollabIde.Raft
