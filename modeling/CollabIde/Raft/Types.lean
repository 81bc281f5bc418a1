import Mathlib.Data.Fintype.Card
import CollabIde.Lib.Slice
import CollabIde.Lib.Replication.Protocol

/-!
# A Raft peer: its state, its persister, its messages

The data types of `raft.go`, and what reads and writes them without a message. Go's `int` is `ℤ`;
`interface{}` and `[]byte` values that may be nil are `Option`; the clock (`lastHeartBeat`,
`electionTimeout`) is left out: an election may start at any time.

The terms of a cluster stand for `int`s that do not run over (it would take 2^63 elections). A
single peer may be sent any term, so its election counts as Go does (`wrap`).
-/

namespace CollabIde

export Replication (Role)

structure LogEntry (C : Type) where
  term : ℤ
  command : Option C
  deriving DecidableEq, Repr

/-- The largest `int`. -/
def maxInt : ℤ := 2 ^ 63 - 1

/-- What Go makes of an `int` that runs over its 64 bits. -/
def wrap (x : ℤ) : ℤ := x.bmod (2 ^ 64)

/-- Only the largest `int` has no successor. -/
theorem lt_wrap_succ_iff (x : ℤ) : x < wrap (x + 1) ↔ x < maxInt := by
  unfold wrap maxInt Int.bmod
  dsimp only
  split <;> omega

theorem wrap_succ_ne (x : ℤ) : wrap (x + 1) ≠ x := by
  unfold wrap Int.bmod
  dsimp only
  split <;> omega

instance {C : Type} : HasTerm (LogEntry C) ℤ := ⟨LogEntry.term⟩

@[simp] theorem termOf_logEntry {C : Type} (e : LogEntry C) : termOf e = e.term := rfl

/-- The five fields that `persist` encodes. -/
structure PersistentState (C : Type) where
  currentTerm : ℤ
  votedFor : ℤ
  log : List (LogEntry C)
  lastIncludedIndex : ℤ
  lastIncludedTerm : ℤ
  deriving DecidableEq

/-- What a persister holds; nothing yet, or what was saved last. -/
structure Persister (C D : Type) where
  raftstate : Option (PersistentState C)
  snapshot : Option D
  deriving DecidableEq

/-- Nil leaves a piece unchanged. -/
def Persister.save {C D : Type} (ps : Persister C D) (raftstate : Option (PersistentState C))
    (snapshot : Option D) : Persister C D :=
  { raftstate := raftstate.or ps.raftstate, snapshot := snapshot.or ps.snapshot }

/-- A peer of `n`. -/
structure Raft (n : ℕ) (C D : Type) where
  persister : Persister C D
  me : Fin n
  currentTerm : ℤ
  votedFor : ℤ
  currentRole : Role
  log : List (LogEntry C)
  commitIndex : ℤ
  lastApplied : ℤ
  nextIndex : Fin n → ℤ
  matchIndex : Fin n → ℤ
  lastIncludedIndex : ℤ
  lastIncludedTerm : ℤ
  snapshot : Option D

structure InstallSnapshotArgs (D : Type) where
  term : ℤ
  leaderId : ℤ
  lastIncludedIndex : ℤ
  lastIncludedTerm : ℤ
  data : Option D

structure InstallSnapshotReply where
  term : ℤ := 0

structure RequestVoteArgs where
  term : ℤ
  candidateId : ℤ
  lastLogIndex : ℤ
  lastLogTerm : ℤ

structure RequestVoteReply where
  term : ℤ := 0
  voteGranted : Bool := false

structure AppendEntriesArgs (C : Type) where
  term : ℤ
  leaderId : ℤ
  prevLogIndex : ℤ
  prevLogTerm : ℤ
  entries : List (LogEntry C)
  leaderCommit : ℤ

structure AppendEntriesReply where
  term : ℤ := 0
  success : Bool := false
  xTerm : ℤ := 0
  xIndex : ℤ := 0
  xLen : ℤ := 0

structure ApplyMsg (C D : Type) where
  commandValid : Bool := false
  command : Option C := none
  commandIndex : ℤ := 0
  snapshotValid : Bool := false
  snapshot : Option D := none
  snapshotTerm : ℤ := 0
  snapshotIndex : ℤ := 0

namespace Raft

variable {n : ℕ} {C D : Type} (rf : Raft n C D)

def logIndex (currIndex : ℤ) : ℤ := currIndex - rf.lastIncludedIndex

def lastLogIndex : ℤ := rf.log.length + rf.lastIncludedIndex - 1

/-- `rf.log[rf.logIndex(i)]`. -/
def entry (i : ℤ) : Option (LogEntry C) := get rf.log (rf.logIndex i)

/-- `rf.log[rf.logIndex(i):]`. -/
def entriesFrom (i : ℤ) : Option (List (LogEntry C)) :=
  slice rf.log (rf.logIndex i) rf.log.length

/-- `rf.log[:rf.logIndex(i)+1]`. -/
def entriesTo (i : ℤ) : Option (List (LogEntry C)) := slice rf.log 0 (rf.logIndex i + 1)

def persistentState : PersistentState C :=
  ⟨rf.currentTerm, rf.votedFor, rf.log, rf.lastIncludedIndex, rf.lastIncludedTerm⟩

def persist : Raft n C D :=
  { rf with persister := rf.persister.save (some rf.persistentState) rf.snapshot }

def readPersist (data : Option (PersistentState C)) : Raft n C D :=
  match data with
  | none => rf
  | some st =>
    { rf with
      currentTerm := st.currentTerm, votedFor := st.votedFor, log := st.log
      lastIncludedIndex := st.lastIncludedIndex, lastIncludedTerm := st.lastIncludedTerm }

/-- What `Make` sets before it reads the persisted state. -/
def blank (me : Fin n) (persister : Persister C D) : Raft n C D where
  persister := persister
  me := me
  currentTerm := 0
  votedFor := -1
  currentRole := .follower
  log := [⟨0, none⟩]
  commitIndex := 0
  lastApplied := 0
  nextIndex _ := 0
  matchIndex _ := 0
  lastIncludedIndex := 0
  lastIncludedTerm := 0
  snapshot := persister.snapshot

def make (me : Fin n) (persister : Persister C D) : Raft n C D :=
  let rf := (blank me persister).readPersist persister.raftstate
  { rf with lastApplied := rf.lastIncludedIndex, commitIndex := rf.lastIncludedIndex }

section Persist

@[simp] theorem persist_me : rf.persist.me = rf.me := rfl
@[simp] theorem persist_currentTerm : rf.persist.currentTerm = rf.currentTerm := rfl
@[simp] theorem persist_votedFor : rf.persist.votedFor = rf.votedFor := rfl
@[simp] theorem persist_currentRole : rf.persist.currentRole = rf.currentRole := rfl
@[simp] theorem persist_log : rf.persist.log = rf.log := rfl
@[simp] theorem persist_commitIndex : rf.persist.commitIndex = rf.commitIndex := rfl
@[simp] theorem persist_lastApplied : rf.persist.lastApplied = rf.lastApplied := rfl
@[simp] theorem persist_nextIndex : rf.persist.nextIndex = rf.nextIndex := rfl
@[simp] theorem persist_matchIndex : rf.persist.matchIndex = rf.matchIndex := rfl
@[simp] theorem persist_lastIncludedIndex :
    rf.persist.lastIncludedIndex = rf.lastIncludedIndex := rfl
@[simp] theorem persist_lastIncludedTerm :
    rf.persist.lastIncludedTerm = rf.lastIncludedTerm := rfl
@[simp] theorem persist_snapshot : rf.persist.snapshot = rf.snapshot := rfl

@[simp] theorem persist_raftstate :
    rf.persist.persister.raftstate = some rf.persistentState := rfl

theorem persist_snapshot_saved :
    rf.persist.persister.snapshot = rf.snapshot.or rf.persister.snapshot := rfl

end Persist

end Raft

/-- For the runs of three peers. -/
instance threePeers : NeZero 3 := ⟨by decide⟩

end CollabIde
