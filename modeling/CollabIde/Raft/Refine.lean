import CollabIde.Lib.Replication.Completeness
import CollabIde.Raft.Cluster
import CollabIde.Raft.Trim

/-!
# What a peer does refines the replication of one history

`Refines v rf x`: the peer's state is the node `x` of the replication protocol, with the history
trimmed at `base`, and its persister holds the same except for the term, which may be earlier
(`saved`). Each function of a peer is matched by steps of its node (`Local`), under the conditions
that the disciplines name:

* a request: `requestVote_refines`, `appendEntries_refines`, `installSnapshot_refines`;
* a reply: `stepDown_refines`, `becomeLeader_refines`, `advance_refines`;
* the rest: `startElection_refines`, `start_refines`, `doSnapshot_refines`, `make_refines`.

What a message promises is `RpcOk` and `AnswerOk`: a request shows what its sender stood with or
sent, a granted vote was recorded, a success was stored.
-/

namespace CollabIde

open Replication

variable {n : ℕ} {C D : Type}

/-- The abstract state of a cluster. -/
abbrev RaftState (n : ℕ) (C : Type) := State (Fin n) ℤ (LogEntry C)

/-- `votedFor` of a vote. -/
def voteId : Option (Fin n) → ℤ
  | none => -1
  | some c => c

theorem voteId_eq_neg {o : Option (Fin n)} : voteId o = -1 ↔ o = none := by
  cases o with
  | none => simp [voteId]
  | some c => simp [voteId]

theorem voteId_eq {o : Option (Fin n)} {c : Fin n} : voteId o = c ↔ o = some c := by
  cases o with
  | none => simp [voteId]
  | some d => simp [voteId, Fin.ext_iff]

/-- What `Make` finds: nothing saved is as good as a blank state. -/
def Persister.saved (ps : Persister C D) : PersistentState C :=
  ps.raftstate.getD ⟨0, -1, [⟨0, none⟩], 0, 0⟩

theorem Raft.make_eq (i : Fin n) (ps : Persister C D) :
    Raft.make i ps = { Raft.blank i ps with
      currentTerm := ps.saved.currentTerm, votedFor := ps.saved.votedFor, log := ps.saved.log
      lastIncludedIndex := ps.saved.lastIncludedIndex
      lastIncludedTerm := ps.saved.lastIncludedTerm
      lastApplied := ps.saved.lastIncludedIndex, commitIndex := ps.saved.lastIncludedIndex } := by
  cases hs : ps.raftstate <;>
    simp [Raft.make, Raft.readPersist, Persister.saved, hs, Raft.blank]

/-- The peer's state is the node `x`. -/
structure Refines (v : Fin n) (rf : Raft n C D) (x : Node (Fin n) ℤ (LogEntry C)) : Prop where
  me : rf.me = v
  term : x.term = rf.currentTerm
  vote : rf.votedFor = voteId x.vote
  role : x.role = rf.currentRole
  commit : rf.commitIndex = x.commit
  keeps : rf.Keeps x.hist x.base
  saved : rf.persister.saved = { rf.persistentState with currentTerm := x.saved }
  saved_nonneg : 0 ≤ x.saved
  term_nonneg : 0 ≤ x.term
  busy : x.role ≠ .follower → 0 < x.term

/-- Steps of the node `v` alone, none of them a win. -/
structure Local (D : Discipline) (v : Fin n) (a a' : RaftState n C) : Prop where
  steps : Relation.ReflTransGen (Step D) a a'
  others : ∀ w, w ≠ v → a'.node w = a.node w
  led : ∀ t, (a'.ldr t).isSome = (a.ldr t).isSome

namespace Local

variable {Δ : Discipline} {v : Fin n} {a a' a'' : RaftState n C}

theorem refl (a : RaftState n C) : Local Δ v a a := ⟨.refl, fun _ _ => rfl, fun _ => rfl⟩

theorem trans (h : Local Δ v a a') (h' : Local Δ v a' a'') : Local Δ v a a'' :=
  ⟨h.steps.trans h'.steps, fun w hw => (h'.others w hw).trans (h.others w hw),
    fun t => (h'.led t).trans (h.led t)⟩

theorem of_step (hs : Step Δ a a') (ho : ∀ w, w ≠ v → a'.node w = a.node w)
    (hl : ∀ t, (a'.ldr t).isSome = (a.ldr t).isSome) : Local Δ v a a' :=
  ⟨.single hs, ho, hl⟩

/-- A step that changes one node and no record. -/
theorem of_set {x : Node (Fin n) ℤ (LogEntry C)} (hs : Step Δ a (a.set v x)) :
    Local Δ v a (a.set v x) :=
  of_step hs (fun _ hw => set_node_ne _ _ hw) fun _ => rfl

theorem grows (hr : Replication.Reach Δ 0 a) (h : Local Δ v a a') : Grows a a' :=
  grows_of_steps hr h.steps

theorem reach (hr : Replication.Reach Δ 0 a) (h : Local Δ v a a') : Replication.Reach Δ 0 a' :=
  hr.steps h.steps

end Local

/-- Leaders have positive terms. -/
def LedPos (a : RaftState n C) : Prop := ∀ t c L, a.ldr t = some (c, L) → 0 < t

theorem LedPos.of_led {a a' : RaftState n C} (h : LedPos a)
    (hl : ∀ t, (a'.ldr t).isSome = (a.ldr t).isSome) : LedPos a' := fun t c L hL => by
  have h1 := hl t
  rw [hL, Option.isSome_some] at h1
  obtain ⟨y, hy⟩ := Option.isSome_iff_exists.mp h1.symm
  exact h t y.1 y.2 hy

/-! ## What messages promise -/

/-- The history behind an append request. -/
structure Sent (a : RaftState n C) (args : AppendEntriesArgs C) (M : List (LogEntry C))
    (k p : ℕ) : Prop where
  sent : a.sent args.term M k
  prevLogIndex : args.prevLogIndex = p
  le : p ≤ M.length
  prevLogTerm : args.prevLogTerm = lastTerm (M.take p)
  entries : args.entries = M.drop p
  leaderCommit : args.leaderCommit = k

/-- The leader's history behind a snapshot request. -/
structure Snapped (a : RaftState n C) (args : InstallSnapshotArgs D) (k : ℕ) (c : Fin n)
    (L : List (LogEntry C)) : Prop where
  snap : a.snap args.term k
  ldr : a.ldr args.term = some (c, L)
  le : k ≤ L.length
  index : args.lastIncludedIndex = k
  term : args.lastIncludedTerm = lastTerm (L.take k)

/-- The candidate's history behind a vote request. -/
structure Stood (a : RaftState n C) (args : RequestVoteArgs) (c : Fin n)
    (h : List (LogEntry C)) : Prop where
  stood : a.stood c args.term h
  candidateId : args.candidateId = c
  lastLogIndex : args.lastLogIndex = h.length
  lastLogTerm : args.lastLogTerm = lastTerm h

def RpcOk (a : RaftState n C) (source : Fin n) : Rpc C D → Prop
  | .vote _ args => 0 ≤ args.term ∧ ∃ h, Stood a args source h
  | .append args => 0 ≤ args.term ∧ ∃ M k p, Sent a args M k p
  | .snapshot args => 0 ≤ args.term ∧ ∃ k c L, Snapped a args k c L

def AnswerOk (a : RaftState n C) (source target : Fin n) : Answer C D → Prop
  | .vote _ args reply => 0 ≤ args.term ∧
    (reply.voteGranted = true → a.voted target args.term source)
  | .append args reply => 0 ≤ args.term ∧ (∃ M k p, Sent a args M k p) ∧
    (reply.success = true → args.prevLogIndex + args.entries.length ≤ a.ack target args.term)
  | .snapshot args reply => 0 ≤ args.term ∧ (∃ k c L, Snapped a args k c L) ∧
    (reply.term ≤ args.term → args.lastIncludedIndex ≤ (a.node target).base)

section Grow

variable {a a' : RaftState n C} {i j : Fin n}

theorem Sent.mono {args : AppendEntriesArgs C} {M : List (LogEntry C)} {k p : ℕ}
    (h : Sent a args M k p) (hg : Grows a a') : Sent a' args M k p :=
  { h with sent := hg.sent h.sent }

theorem Sent.length {args : AppendEntriesArgs C} {M : List (LogEntry C)} {k p : ℕ}
    (h : Sent a args M k p) : args.prevLogIndex + args.entries.length = M.length := by
  have := h.le
  rw [h.prevLogIndex, h.entries, List.length_drop]
  omega

theorem Snapped.mono {args : InstallSnapshotArgs D} {k : ℕ} {c : Fin n} {L : List (LogEntry C)}
    (h : Snapped a args k c L) (hg : Grows a a') : ∃ L', Snapped a' args k c L' := by
  obtain ⟨L', hL', hp⟩ := hg.ldr h.ldr
  exact ⟨L', hg.snap h.snap, hL', h.le.trans hp.length_le, h.index,
    by rw [take_eq_of_isPrefix hp h.le]; exact h.term⟩

theorem RpcOk.mono {r : Rpc C D} (h : RpcOk a i r) (hg : Grows a a') : RpcOk a' i r := by
  cases r with
  | vote e args =>
    obtain ⟨h0, g, hs⟩ := h
    exact ⟨h0, g, { hs with stood := hg.stood hs.stood }⟩
  | append args =>
    obtain ⟨h0, M, k, p, hs⟩ := h
    exact ⟨h0, M, k, p, hs.mono hg⟩
  | snapshot args =>
    obtain ⟨h0, k, c, L, hs⟩ := h
    obtain ⟨L', hs'⟩ := hs.mono hg
    exact ⟨h0, k, c, L', hs'⟩

theorem AnswerOk.mono {r : Answer C D} (h : AnswerOk a i j r) (hg : Grows a a') :
    AnswerOk a' i j r := by
  cases r with
  | vote e args reply => exact ⟨h.1, fun hv => hg.voted (h.2 hv)⟩
  | append args reply =>
    obtain ⟨h0, ⟨M, k, p, hs⟩, hack⟩ := h
    refine ⟨h0, ⟨M, k, p, hs.mono hg⟩, fun hv => (hack hv).trans ?_⟩
    exact_mod_cast hg.ack j args.term
  | snapshot args reply =>
    obtain ⟨h0, ⟨k, c, L, hs⟩, hb⟩ := h
    obtain ⟨L', hs'⟩ := hs.mono hg
    refine ⟨h0, ⟨k, c, L', hs'⟩, fun ht => (hb ht).trans ?_⟩
    exact_mod_cast hg.base j

end Grow

/-! ## The peer's own pieces -/

namespace Refines

open State

variable {v : Fin n} {rf : Raft n C D} {x : Node (Fin n) ℤ (LogEntry C)} {t : ℤ}

@[simp] theorem saved_persist : rf.persist.persister.saved = rf.persistentState := rfl

theorem lastLogIndex (h : Refines v rf x) : rf.lastLogIndex = x.hist.length :=
  h.keeps.lastLogIndex

/-- The last entry of the log. -/
theorem last (h : Refines v rf x) :
    ∃ e, rf.entry rf.lastLogIndex = some e ∧ e.term = lastTerm x.hist := by
  obtain ⟨e, he, ht, -⟩ := h.keeps.entry h.keeps.le le_rfl
  rw [List.take_length] at ht
  exact ⟨e, by rw [h.lastLogIndex]; exact he, ht⟩

/-- A later term that is persisted, with no vote. -/
theorem stepDown (h : Refines v rf x) (ht : 0 ≤ t) : Refines v (rf.stepDown t)
    { x with term := t, saved := t, vote := none, role := .follower } where
  me := h.me
  term := rfl
  vote := rfl
  role := rfl
  commit := h.commit
  keeps := ⟨h.keeps.log, h.keeps.index, h.keeps.term, h.keeps.le⟩
  saved := rfl
  saved_nonneg := ht
  term_nonneg := ht
  busy hr := absurd rfl hr

/-- A follower of a later term that is not persisted. -/
theorem raise (h : Refines v rf x) (ht : rf.currentTerm ≤ t) :
    Refines v { rf with currentRole := .follower, currentTerm := t }
      { x with term := t, role := .follower } where
  me := h.me
  term := rfl
  vote := h.vote
  role := rfl
  commit := h.commit
  keeps := ⟨h.keeps.log, h.keeps.index, h.keeps.term, h.keeps.le⟩
  saved := h.saved
  saved_nonneg := h.saved_nonneg
  term_nonneg := (h.term ▸ h.term_nonneg).trans ht
  busy hr := absurd rfl hr

theorem demote (h : Refines v rf x) :
    Refines v { rf with currentRole := .follower } { x with role := .follower } where
  me := h.me
  term := h.term
  vote := h.vote
  role := rfl
  commit := h.commit
  keeps := ⟨h.keeps.log, h.keeps.index, h.keeps.term, h.keeps.le⟩
  saved := h.saved
  saved_nonneg := h.saved_nonneg
  term_nonneg := h.term_nonneg
  busy hr := absurd rfl hr

/-- A restart. -/
theorem make (h : Refines v rf x) : Refines v (Raft.make rf.me rf.persister)
    { x with term := x.saved, role := .follower, commit := x.base } := by
  rw [Raft.make_eq, h.saved]
  exact {
    me := h.me
    term := rfl
    vote := h.vote
    role := rfl
    commit := h.keeps.index
    keeps := ⟨h.keeps.log, h.keeps.index, h.keeps.term, h.keeps.le⟩
    saved := h.saved
    saved_nonneg := h.saved_nonneg
    term_nonneg := h.saved_nonneg
    busy := fun hr => absurd rfl hr }

/-- A blank peer. -/
theorem initial (v : Fin n) :
    Refines v (Raft.make v ⟨none, none⟩ : Raft n C D) ⟨0, 0, none, .follower, [], 0, 0⟩ where
  me := rfl
  term := rfl
  vote := rfl
  role := rfl
  commit := rfl
  keeps := ⟨rfl, rfl, rfl, le_rfl⟩
  saved := rfl
  saved_nonneg := le_rfl
  term_nonneg := le_rfl
  busy hr := absurd rfl hr

end Refines

end CollabIde
