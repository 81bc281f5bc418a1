import CollabIde.Raft.Votes

/-!
# Votes are counted

The elections that one peer starts, each with the count that its goroutines share, next to all
that the peer does under its lock. A reply may be processed at any time, also in a later candidacy.
`Candidate.vote_counting`: the peer wins an election exactly when enough peers have granted their
votes in it while it stands, if there are two peers at least and neither a reply nor an election in
the largest term takes the peer back to an earlier term. Alone a peer never counts its own vote, and
a peer that is back in an earlier term can stand for the same term once more, with the count of its
first election still alive.
-/

namespace CollabIde

variable {n : ℕ} {C D : Type}

/-- An election that the peer has started. -/
structure Election (n : ℕ) where
  args : RequestVoteArgs
  voteCount : ℕ
  /-- The peers whose replies have been processed. -/
  heard : Finset (Fin n)
  /-- Those of them that have granted their votes. -/
  granted : Finset (Fin n)
  /-- How often the peer has become the leader through the election. -/
  won : ℕ

/-- The election that has just been started. -/
def Election.begin (n : ℕ) (args : RequestVoteArgs) : Election n := ⟨args, 1, ∅, ∅, 0⟩

/-- The votes once the peer `j` has replied. -/
def Election.grantedWith (e : Election n) (j : Fin n) (reply : RequestVoteReply) : Finset (Fin n) :=
  if reply.voteGranted then insert j e.granted else e.granted

/-- A peer with its elections. -/
structure Candidate (n : ℕ) (C D : Type) where
  raft : Raft n C D
  elections : List (Election n)

namespace Candidate

inductive Action (n : ℕ) (C D : Type) where
  /-- Anything but an election and its replies. -/
  | call (c : Call n C D)
  | start
  /-- The peer `j` has replied in the election `i`. -/
  | reply (i : ℕ) (j : Fin n) (reply : RequestVoteReply)

variable (s : Candidate n C D)

def call : Call n C D → Option (Candidate n C D)
  | .election | .voteReply _ _ _ => none
  | c => (s.raft.after c).map fun rf => { s with raft := rf }

def start : Option (Candidate n C D) :=
  s.raft.startElectionInt.map fun r => ⟨r.1, s.elections ++ [.begin n r.2]⟩

/-- Each peer replies once, and grants its vote in the term of the request only. -/
def reply (i : ℕ) (j : Fin n) (reply : RequestVoteReply) : Option (Candidate n C D) :=
  s.elections[i]?.bind fun e =>
    if j ≠ s.raft.me ∧ j ∉ e.heard ∧ (reply.voteGranted = true → reply.term = e.args.term) then
      let r := s.raft.voteReply e.voteCount e.args reply
      some ⟨r.1, s.elections.set i {
        args := e.args
        voteCount := r.2.1
        heard := insert j e.heard
        granted := e.grantedWith j reply
        won := if r.2.2 then e.won + 1 else e.won }⟩
    else none

def step : Action n C D → Option (Candidate n C D)
  | .call c => s.call c
  | .start => s.start
  | .reply i j r => s.reply i j r

def machine (n : ℕ) (C D : Type) : Machine (Candidate n C D) (Action n C D) where
  init s := ∃ me persister, s = ⟨.make me persister, []⟩
  step := step

/-- The peer does not go back to an earlier term. -/
def NotBack : Action n C D → Prop
  | .call c => s.raft.NotBack c
  | .start => s.raft.NotBack (.election : Call n C D)
  | .reply i _ r => ∀ e ∈ s.elections[i]?, s.raft.NotBack (.voteReply e.voteCount e.args r)

instance : (x : Action n C D) → Decidable (s.NotBack x)
  | .call c => inferInstanceAs (Decidable (s.raft.NotBack c))
  | .start => inferInstanceAs (Decidable (s.raft.NotBack (.election : Call n C D)))
  | .reply i _ r => inferInstanceAs (Decidable
      (∀ e ∈ s.elections[i]?, s.raft.NotBack (.voteReply e.voteCount e.args r)))

/-- The peer stands in the election `i`, and the reply makes its votes a majority. -/
def Elected (i : ℕ) (j : Fin n) (reply : RequestVoteReply) : Prop :=
  ∃ e, s.elections[i]? = some e ∧ s.raft.currentRole = .candidate ∧
    s.raft.currentTerm = e.args.term ∧ n / 2 + 1 ≤ 1 + (e.grantedWith j reply).card

/-- The state of a leader that has just been elected. -/
def Leads (i : ℕ) : Prop :=
  (∃ e, s.elections[i]? = some e ∧ s.raft.currentTerm = e.args.term ∧ e.won = 1) ∧
    ∀ j, s.raft.nextIndex j = s.raft.lastLogIndex + 1 ∧ s.raft.matchIndex j = 0

/-- The votes are counted. -/
structure Counted : Prop where
  /-- As long as the peer stands, its votes are no majority. -/
  waits : ∀ e ∈ s.elections, s.raft.currentRole = .candidate →
    s.raft.currentTerm = e.args.term → 1 + e.granted.card < n / 2 + 1
  once : ∀ e ∈ s.elections, e.won ≤ 1
  wins : ∀ x s', s.step x = some s' → (s.raft.currentRole ≠ .leader ∧
    s'.raft.currentRole = .leader ↔ ∃ i j r, x = .reply i j r ∧ s.Elected i j r)
  leads : ∀ i j r s', s.step (.reply i j r) = some s' → s.Elected i j r → s'.Leads i

end Candidate

namespace Raft

/-! ## What takes a peer's candidacy -/

/-- The peer follows, or keeps its role and its term. -/
def Stays (rf rf' : Raft n C D) : Prop :=
  rf'.currentRole = .follower ∨
    rf'.currentRole = rf.currentRole ∧ rf'.currentTerm = rf.currentTerm

variable {rf rf' : Raft n C D}

theorem requestVote_stays {args : RequestVoteArgs} {reply : RequestVoteReply}
    (h : rf.requestVote args = some (rf', reply)) : rf.Stays rf' := by
  unfold requestVote at h
  split at h
  · cases h
    exact .inr ⟨rfl, rfl⟩
  have hterm : rf.Stays (rf.requestVoteTerm args) := by
    unfold requestVoteTerm
    split
    · exact .inl rfl
    · exact .inr ⟨rfl, rfl⟩
  unfold requestVoteRest at h
  split at h
  · obtain ⟨last, -, h⟩ := Option.bind_eq_some_iff.mp h
    split at h
    · cases h
      exact hterm
    · cases h
      exact hterm
  · cases h
    exact hterm

theorem appendEntries_stays {args : AppendEntriesArgs C} {reply : AppendEntriesReply}
    (h : rf.appendEntries args = some (rf', reply)) : rf.Stays rf' := by
  unfold appendEntries at h
  split at h
  · cases h
    exact .inr ⟨rfl, rfl⟩
  left
  unfold appendEntriesRest at h
  split at h
  · cases h
    rfl
  split at h
  · cases h
    rfl
  obtain ⟨prev, -, h⟩ := Option.bind_eq_some_iff.mp h
  split at h
  · cases h
    rfl
  obtain ⟨rf₁, h₁, h⟩ := Option.bind_eq_some_iff.mp h
  cases h
  obtain ⟨kept, -, h₁⟩ := Option.bind_eq_some_iff.mp h₁
  cases h₁
  rfl

theorem installSnapshot_stays {args : InstallSnapshotArgs D} {reply : InstallSnapshotReply}
    (h : rf.installSnapshot args = some (rf', reply)) : rf.Stays rf' := by
  unfold installSnapshot at h
  split at h
  · cases h
    exact .inr ⟨rfl, rfl⟩
  split at h
  · cases h
    exact .inl rfl
  · obtain ⟨rf₁, h₁, h⟩ := Option.map_eq_some_iff.mp h
    cases h
    obtain ⟨rest, -, rfl⟩ := Option.map_eq_some_iff.mp h₁
    exact .inl rfl

theorem appendReply_stays {target : Fin n} {args : AppendEntriesArgs C}
    {reply : AppendEntriesReply} (h : rf.appendReply target args reply = some rf') :
    rf.Stays rf' := by
  unfold appendReply at h
  split at h
  · cases h
    exact .inl rfl
  split at h
  · cases h
    exact .inr ⟨rfl, rfl⟩
  split at h
  · obtain ⟨i, -, h⟩ := Option.bind_eq_some_iff.mp h
    cases h
    exact .inr ⟨rfl, rfl⟩
  · unfold retreat at h
    split at h
    · cases h
      exact .inr ⟨rfl, rfl⟩
    · obtain ⟨i, -, h⟩ := Option.bind_eq_some_iff.mp h
      cases h
      exact .inr ⟨rfl, rfl⟩

theorem snapshotReply_stays (target : Fin n) (args : InstallSnapshotArgs D)
    (reply : InstallSnapshotReply) : rf.Stays (rf.snapshotReply target args reply) := by
  unfold snapshotReply
  split
  · exact .inl rfl
  · split <;> exact .inr ⟨rfl, rfl⟩

/-- What the reply of a vote request does. -/
inductive Polled (rf : Raft n C D) (count : ℕ) (args : RequestVoteArgs)
    (reply : RequestVoteReply) : Raft n C D → ℕ → Bool → Prop
  | down : args.term < reply.term → Polled rf count args reply (rf.stepDown reply.term) count false
  | late : reply.term ≤ args.term → ¬ (rf.currentTerm = args.term ∧ rf.currentRole = .candidate) →
    Polled rf count args reply rf count false
  | counted : reply.term ≤ args.term → rf.currentTerm = args.term → rf.currentRole = .candidate →
    (if reply.voteGranted then count + 1 else count) < n / 2 + 1 →
    Polled rf count args reply rf (if reply.voteGranted then count + 1 else count) false
  | won : reply.term ≤ args.term → rf.currentTerm = args.term → rf.currentRole = .candidate →
    n / 2 + 1 ≤ (if reply.voteGranted then count + 1 else count) →
    Polled rf count args reply rf.becomeLeader
      (if reply.voteGranted then count + 1 else count) true

theorem polled (rf : Raft n C D) (count : ℕ) (args : RequestVoteArgs) (reply : RequestVoteReply) :
    Polled rf count args reply (rf.voteReply count args reply).1
      (rf.voteReply count args reply).2.1 (rf.voteReply count args reply).2.2 := by
  unfold voteReply
  split
  · exact .down ‹_›
  rename_i hle
  rw [not_lt] at hle
  split
  · rename_i hout
    rw [← not_and_or] at hout
    exact .late hle hout
  rename_i hin
  rw [← not_and_or, not_not] at hin
  obtain ⟨hterm, hrole⟩ := hin
  have hlead : rf.currentRole ≠ .leader := by
    rw [hrole]
    decide
  by_cases hcount : n / 2 + 1 ≤ if reply.voteGranted then count + 1 else count
  · dsimp only
    rw [if_pos ⟨hcount, hlead⟩]
    exact .won hle hterm hrole hcount
  · dsimp only
    rw [if_neg fun h => hcount h.1]
    exact .counted hle hterm hrole (not_le.mp hcount)

end Raft

namespace Candidate

variable {s s' : Candidate n C D}

/-- A call takes the candidacy, or leaves it. -/
theorem call_cases {c : Call n C D} (hs : s.call c = some s') :
    s.raft.after c = some s'.raft ∧ s'.elections = s.elections ∧ s.raft.Stays s'.raft := by
  unfold call at hs
  split at hs
  · cases hs
  · cases hs
  rename_i helection hreply
  obtain ⟨rf, hr, rfl⟩ := Option.map_eq_some_iff.mp hs
  refine ⟨hr, rfl, ?_⟩
  cases c with
  | requestVote args =>
    obtain ⟨⟨_, reply⟩, hcall, rfl⟩ := Option.map_eq_some_iff.mp hr
    exact Raft.requestVote_stays hcall
  | appendEntries args =>
    obtain ⟨⟨_, reply⟩, hcall, rfl⟩ := Option.map_eq_some_iff.mp hr
    exact Raft.appendEntries_stays hcall
  | installSnapshot args =>
    obtain ⟨⟨_, reply⟩, hcall, rfl⟩ := Option.map_eq_some_iff.mp hr
    exact Raft.installSnapshot_stays hcall
  | start command =>
    cases hr
    unfold Raft.start
    split <;> exact .inr ⟨rfl, rfl⟩
  | snapshot index data =>
    change s.raft.doSnapshot index data = some rf at hr
    unfold Raft.doSnapshot at hr
    split at hr
    · cases hr
      exact .inr ⟨rfl, rfl⟩
    · obtain ⟨e, -, hr⟩ := Option.bind_eq_some_iff.mp hr
      obtain ⟨rest, -, hr⟩ := Option.bind_eq_some_iff.mp hr
      cases hr
      exact .inr ⟨rfl, rfl⟩
  | election => exact absurd rfl helection
  | voteReply voteCount args reply => exact absurd rfl (hreply voteCount args reply)
  | appendReply target args reply => exact Raft.appendReply_stays hr
  | snapshotReply target args reply =>
    cases hr
    exact Raft.snapshotReply_stays target args reply

/-- An election starts in the next term. -/
theorem start_cases (hs : s.start = some s') :
    s.raft.currentRole ≠ .leader ∧ s'.raft.currentRole = .candidate ∧
      s'.raft.currentTerm = wrap (s.raft.currentTerm + 1) ∧
      ∃ args : RequestVoteArgs, args.term = s'.raft.currentTerm ∧
        s'.elections = s.elections ++ [.begin n args] := by
  obtain ⟨⟨rf, args⟩, hr, rfl⟩ := Option.map_eq_some_iff.mp hs
  unfold Raft.startElectionInt Raft.electionIn at hr
  split at hr
  · cases hr
  rename_i hrole
  obtain ⟨last, -, hr⟩ := Option.bind_eq_some_iff.mp hr
  cases hr
  exact ⟨hrole, rfl, rfl, _, rfl, rfl⟩

theorem reply_cases {i : ℕ} {j : Fin n} {r : RequestVoteReply} (hs : s.reply i j r = some s') :
    ∃ e, s.elections[i]? = some e ∧ j ∉ e.heard ∧ (r.voteGranted = true → r.term = e.args.term) ∧
      ∃ count won, Raft.Polled s.raft e.voteCount e.args r s'.raft count won ∧
        s'.elections = s.elections.set i {
          args := e.args
          voteCount := count
          heard := insert j e.heard
          granted := e.grantedWith j r
          won := if won then e.won + 1 else e.won } := by
  obtain ⟨e, he, hs⟩ := Option.bind_eq_some_iff.mp hs
  split at hs
  · rename_i hguard
    cases hs
    exact ⟨e, he, hguard.2.1, hguard.2.2, _, _, Raft.polled .., rfl⟩
  · cases hs

/-! ## The invariant -/

/-- What the goroutines of an election have counted. -/
structure Tally (s : Candidate n C D) (e : Election n) : Prop where
  le : e.args.term ≤ s.raft.currentTerm
  heard : e.granted ⊆ e.heard
  once : e.won ≤ 1
  count : s.raft.currentRole = .candidate → s.raft.currentTerm = e.args.term →
    e.voteCount = 1 + e.granted.card ∧ 1 + e.granted.card < n / 2 + 1 ∧ e.won = 0

def Tallied (s : Candidate n C D) : Prop := ∀ e ∈ s.elections, s.Tally e

/-- An election in which nothing has been counted meanwhile. -/
theorem Tally.keep {e : Election n} (h : s.Tally e)
    (hle : s.raft.currentTerm ≤ s'.raft.currentTerm) (hst : s.raft.Stays s'.raft) : s'.Tally e where
  le := h.le.trans hle
  heard := h.heard
  once := h.once
  count hrole hterm := by
    obtain hf | ⟨hr, ht⟩ := hst
    · cases hf.symm.trans hrole
    · exact h.count (hr ▸ hrole) (ht ▸ hterm)

theorem Election.card_grantedWith {e : Election n} {j : Fin n} {r : RequestVoteReply}
    (hj : j ∉ e.granted) :
    (e.grantedWith j r).card = if r.voteGranted then e.granted.card + 1 else e.granted.card := by
  unfold Election.grantedWith
  split
  · exact Finset.card_insert_of_notMem hj
  · rfl

theorem Election.grantedWith_subset {e : Election n} {j : Fin n} {r : RequestVoteReply}
    (h : e.granted ⊆ e.heard) : e.grantedWith j r ⊆ insert j e.heard := by
  unfold Election.grantedWith
  split
  · exact Finset.insert_subset_insert j h
  · exact h.trans (Finset.subset_insert j _)

/-- The shared count is one more than the votes of the others. -/
theorem Tally.count_reply {e : Election n} {j : Fin n} {r : RequestVoteReply} (h : s.Tally e)
    (hj : j ∉ e.heard) (hrole : s.raft.currentRole = .candidate)
    (hterm : s.raft.currentTerm = e.args.term) :
    (if r.voteGranted then e.voteCount + 1 else e.voteCount) =
      1 + (e.grantedWith j r).card := by
  rw [Election.card_grantedWith fun hg => hj (h.heard hg), (h.count hrole hterm).1]
  split <;> omega

theorem tallied_reply {i : ℕ} {j : Fin n} {r : RequestVoteReply} (h : s.Tallied)
    (ho : s.NotBack (.reply i j r)) (hs : s.reply i j r = some s') : s'.Tallied := by
  obtain ⟨e, he, hj, hgranted, count, won, hp, hel⟩ := reply_cases hs
  have hte := h e (List.mem_of_getElem? he)
  have hold : s.raft.NotBack (.voteReply e.voteCount e.args r) := ho e he
  -- the others are as they were
  have hrest (hle : s.raft.currentTerm ≤ s'.raft.currentTerm)
      (hrole : s'.raft.currentRole = .candidate → s.raft.currentRole = .candidate ∧
        s'.raft.currentTerm = s.raft.currentTerm)
      (hnew : s'.Tally {
        args := e.args
        voteCount := count
        heard := insert j e.heard
        granted := e.grantedWith j r
        won := if won then e.won + 1 else e.won }) : s'.Tallied := by
    intro e' he'
    rw [hel] at he'
    obtain he' | rfl := List.mem_or_eq_of_mem_set he'
    · have ht := h e' he'
      exact ⟨ht.le.trans hle, ht.heard, ht.once, fun hr hterm =>
        ht.count (hrole hr).1 ((hrole hr).2 ▸ hterm)⟩
    · exact hnew
  have hsub := Election.grantedWith_subset (j := j) (r := r) hte.heard
  generalize hraft : s'.raft = rf at hp
  rw [hraft] at hrest
  cases hp with
  | down hlt =>
    have hle : s.raft.currentTerm ≤ r.term := hold hlt
    exact hrest hle (fun hr => by cases hr) ⟨hraft ▸ hte.le.trans hle, hsub, hte.once,
      fun hr => by rw [hraft] at hr; cases hr⟩
  | late hle hout =>
    refine hrest le_rfl (fun hr => ⟨hr, rfl⟩) ⟨hraft ▸ hte.le, hsub, hte.once, fun hr ht => ?_⟩
    rw [hraft] at hr ht
    exact absurd ⟨ht, hr⟩ hout
  | counted hle hterm hrole hlt =>
    refine hrest le_rfl (fun hr => ⟨hr, rfl⟩) ⟨hraft ▸ hte.le, hsub, hte.once, fun _ _ => ?_⟩
    have hcount := hte.count_reply (r := r) hj hrole hterm
    exact ⟨hcount, hcount ▸ hlt, (hte.count hrole hterm).2.2⟩
  | won hle hterm hrole hge =>
    refine hrest le_rfl (fun hr => by cases hr) ⟨hraft ▸ hte.le, hsub, ?_,
      fun hr => by rw [hraft] at hr; cases hr⟩
    dsimp only
    rw [if_pos rfl, (hte.count hrole hterm).2.2]

theorem tallied_step {x : Action n C D} (hn : n ≠ 1) (h : s.Tallied) (ho : s.NotBack x)
    (hs : s.step x = some s') : s'.Tallied := by
  cases x with
  | call c =>
    obtain ⟨hr, hel, hst⟩ := call_cases hs
    intro e he
    rw [hel] at he
    exact (h e he).keep (Raft.currentTerm_le ho hr) hst
  | start =>
    obtain ⟨-, -, hterm, args, hargs, hel⟩ := start_cases hs
    have hlt : s.raft.currentTerm < s'.raft.currentTerm := hterm ▸ (lt_wrap_succ_iff _).mpr ho
    intro e he
    rw [hel] at he
    obtain he | he := List.mem_append.mp he
    · have ht := h e he
      have hle := ht.le
      exact ⟨by omega, ht.heard, ht.once, fun _ heq => by omega⟩
    · rw [List.mem_singleton.mp he]
      have hpos := s.raft.me.pos
      refine ⟨hargs.le, subset_rfl, Nat.zero_le 1, fun _ _ => ⟨rfl, ?_, rfl⟩⟩
      change 1 + 0 < n / 2 + 1
      omega
  | reply i j r => exact tallied_reply h ho hs

theorem tallied_of_reach (hn : n ≠ 1) (hs : (machine n C D).Reach NotBack s) : s.Tallied := by
  refine hs.invariant (I := Tallied) (fun s h0 => ?_) fun _ _ _ _ h ho => tallied_step hn h ho
  obtain ⟨me, persister, rfl⟩ := h0
  intro e he
  cases he

/-! ## Who wins -/

/-- A reply makes the peer the leader exactly if it completes a majority. -/
theorem Tallied.elected_iff (h : s.Tallied) {i : ℕ} {j : Fin n} {r : RequestVoteReply}
    (hs : s.reply i j r = some s') :
    (s.raft.currentRole ≠ .leader ∧ s'.raft.currentRole = .leader ↔ s.Elected i j r) ∧
      (s.Elected i j r → s'.Leads i) := by
  obtain ⟨e, he, hj, hgranted, count, won, hp, hel⟩ := reply_cases hs
  have hte := h e (List.mem_of_getElem? he)
  have helected : s.Elected i j r ↔ s.raft.currentRole = .candidate ∧
      s.raft.currentTerm = e.args.term ∧ n / 2 + 1 ≤ 1 + (e.grantedWith j r).card := by
    constructor
    · rintro ⟨e', he', hel⟩
      cases he.symm.trans he'
      exact hel
    · exact fun hel => ⟨e, he, hel⟩
  rw [helected]
  generalize hraft : s'.raft = rf at hp
  cases hp with
  | down hlt =>
    -- a reply of a later term grants nothing, and the votes before it were no majority
    have hnot : ¬ (s.raft.currentRole = .candidate ∧ s.raft.currentTerm = e.args.term ∧
        n / 2 + 1 ≤ 1 + (e.grantedWith j r).card) := by
      rintro ⟨hrole, hterm, hge⟩
      have hno : ¬ r.voteGranted = true := fun hv => absurd (hgranted hv) hlt.ne'
      rw [Election.grantedWith, if_neg hno] at hge
      exact absurd hge (hte.count hrole hterm).2.1.not_ge
    exact ⟨iff_of_false (fun hl => by cases hl.2) hnot, fun hel => absurd hel hnot⟩
  | late hle hout =>
    refine ⟨iff_of_false (fun hl => hl.1 hl.2) fun hel => hout ⟨hel.2.1, hel.1⟩,
      fun hel => absurd ⟨hel.2.1, hel.1⟩ hout⟩
  | counted hle hterm hrole hlt =>
    rw [hte.count_reply (r := r) hj hrole hterm] at hlt
    refine ⟨iff_of_false (fun hl => hl.1 hl.2) fun hel => absurd hel.2.2 hlt.not_ge,
      fun hel => absurd hel.2.2 hlt.not_ge⟩
  | won hle hterm hrole hge =>
    rw [hte.count_reply (r := r) hj hrole hterm] at hge
    refine ⟨iff_of_true ⟨by rw [hrole]; decide, rfl⟩ ⟨hrole, hterm, hge⟩, fun _ => ?_⟩
    refine ⟨⟨_, by rw [hel, List.getElem?_set_self (List.getElem?_eq_some_iff.mp he).1], ?_, ?_⟩,
      ?_⟩
    · rw [hraft]
      exact hterm
    · dsimp only
      rw [if_pos rfl, (hte.count hrole hterm).2.2]
    · rw [hraft]
      exact fun j => ⟨rfl, rfl⟩

theorem Tallied.counted (h : s.Tallied) : s.Counted where
  waits e he hrole hterm := ((h e he).count hrole hterm).2.1
  once e he := (h e he).once
  wins x s' hs := by
    cases x with
    | call c =>
      obtain ⟨-, -, hst⟩ := call_cases hs
      refine iff_of_false (fun hl => ?_) fun ⟨i, j, r, hx, _⟩ => by cases hx
      obtain hf | ⟨hr, -⟩ := hst
      · cases hf.symm.trans hl.2
      · exact hl.1 (hr ▸ hl.2)
    | start =>
      obtain ⟨-, hr, -⟩ := start_cases hs
      refine iff_of_false (fun hl => ?_) fun ⟨i, j, r, hx, _⟩ => by cases hx
      cases hr.symm.trans hl.2
    | reply i j r =>
      refine (h.elected_iff hs).1.trans ⟨fun hel => ⟨i, j, r, rfl, hel⟩, ?_⟩
      rintro ⟨i', j', r', hx, hel⟩
      cases hx
      exact hel
  leads _ _ _ _ hs hel := (h.elected_iff hs).2 hel

/-- A peer that has been started with nothing saved. -/
def fresh (me : Fin n) (C D : Type) : Candidate n C D := ⟨.make me ⟨none, none⟩, []⟩

theorem fresh_init (me : Fin n) : (machine n C D).init (fresh me C D) := ⟨me, _, rfl⟩

/-- The votes are counted in all runs in which the peer does not go back to an earlier term, unless
it is alone. -/
theorem vote_counting (n : ℕ) (C D : Type) :
    (∀ s, (machine n C D).Reach NotBack s → s.Counted) ↔ n ≠ 1 := by
  constructor
  · rintro h rfl
    -- its own vote is a majority, and nobody will reply
    have hs : (machine 1 C D).Reach NotBack _ :=
      .step (x := Action.start) (.init (fresh_init 0))
        (show (0 : ℤ) < maxInt by decide) rfl
    have hlt := (h _ hs).waits _ (List.mem_singleton.mpr rfl) rfl rfl
    change 1 + 0 < 1 at hlt
    omega
  · exact fun hn s hs => (tallied_of_reach hn hs).counted

/-- Peer 0 stands in term 1, hears of term 4, and wins term 5 with the vote of peer 1. A reply in
the election of term 1 takes it back to term 4, and it stands in term 5 once more. -/
def stoodTwice : List (Action 3 ℕ Unit) :=
  [.start, .call (.requestVote ⟨4, 2, 0, 0⟩), .start, .reply 1 1 ⟨5, true⟩,
    .reply 0 1 ⟨4, false⟩, .start]

/-- Peer 2 refuses its vote in the first election of term 5, and peer 0 is the leader again. -/
theorem elected_twice : ¬ ∀ s : Candidate 3 ℕ Unit, (machine 3 ℕ Unit).Reachable s → s.Counted := by
  intro h
  have hs : (machine 3 ℕ Unit).Reachable _ :=
    Machine.Reach.run (stoodTwice ++ [.reply 1 2 ⟨5, false⟩]) (.init (fresh_init 0)) rfl
  have honce := (h _ hs).once _ (List.mem_of_getElem? (i := 1) rfl)
  revert honce
  decide

end Candidate

end CollabIde
