import CollabIde.Lib.Run
import CollabIde.Raft.Persist

/-!
# The term and the vote of a peer

One peer from `Make` on, with all that it does under its lock, in any order: requests, elections,
and replies of requests that it has sent at any time before. `Voter` records the votes that the
peer gives. The term and the vote are kept (`votes_and_terms_kept`) but for two slips: the handler
of a reply with a later term than the request's sets that term although the peer may have gone
further by now (`Fresh`), and `InstallSnapshot` raises the term and leaves the vote. Besides,
`currentTerm++` runs over in the largest term.
-/

namespace CollabIde

variable {n : ℕ} {C D : Type}

namespace Raft

variable (rf : Raft n C D)

/-- The vote that the peer gives: its term and the candidate. -/
def grants : Call n C D → Option (ℤ × ℤ)
  | .requestVote args => (rf.requestVote args).bind fun r =>
    if r.2.voteGranted then some (r.1.currentTerm, args.candidateId) else none
  | .election => rf.startElectionInt.map fun r => (r.1.currentTerm, r.1.me)
  | _ => none

/-- The call does not take the peer back, and does not take a vote into a later term. -/
def KeepsVote : Call n C D → Prop
  | .installSnapshot args => rf.currentTerm < args.term → rf.votedFor = -1
  | .voteReply _ args reply => args.term < reply.term → rf.Fresh reply.term
  | .appendReply _ args reply => args.term < reply.term → rf.Fresh reply.term
  | .snapshotReply _ args reply => args.term < reply.term → rf.Fresh reply.term
  | .election => rf.currentTerm < maxInt
  | _ => True

instance : (c : Call n C D) → Decidable (rf.KeepsVote c)
  | .installSnapshot args =>
    inferInstanceAs (Decidable (rf.currentTerm < args.term → rf.votedFor = -1))
  | .voteReply _ args reply => inferInstanceAs (Decidable (args.term < reply.term → rf.Fresh _))
  | .appendReply _ args reply => inferInstanceAs (Decidable (args.term < reply.term → rf.Fresh _))
  | .snapshotReply _ args reply =>
    inferInstanceAs (Decidable (args.term < reply.term → rf.Fresh _))
  | .election => inferInstanceAs (Decidable (rf.currentTerm < maxInt))
  | .requestVote _ | .appendEntries _ | .start _ | .snapshot _ _ => .isTrue trivial

/-- The call does not take the peer back to an earlier term. -/
def NotBack : Call n C D → Prop
  | .voteReply _ args reply => args.term < reply.term → rf.currentTerm ≤ reply.term
  | .appendReply _ args reply => args.term < reply.term → rf.currentTerm ≤ reply.term
  | .snapshotReply _ args reply => args.term < reply.term → rf.currentTerm ≤ reply.term
  | .election => rf.currentTerm < maxInt
  | _ => True

instance : (c : Call n C D) → Decidable (rf.NotBack c)
  | .voteReply _ args reply =>
    inferInstanceAs (Decidable (args.term < reply.term → rf.currentTerm ≤ _))
  | .appendReply _ args reply =>
    inferInstanceAs (Decidable (args.term < reply.term → rf.currentTerm ≤ _))
  | .snapshotReply _ args reply =>
    inferInstanceAs (Decidable (args.term < reply.term → rf.currentTerm ≤ _))
  | .election => inferInstanceAs (Decidable (rf.currentTerm < maxInt))
  | .requestVote _ | .appendEntries _ | .installSnapshot _ | .start _ | .snapshot _ _ =>
    .isTrue trivial

/-- The term does not decrease, and within a term a vote is neither changed nor cleared. -/
def VoteKept (rf rf' : Raft n C D) : Prop :=
  rf.currentTerm ≤ rf'.currentTerm ∧
    (rf'.currentTerm = rf.currentTerm → rf.votedFor ≠ -1 → rf'.votedFor = rf.votedFor)

end Raft

/-- A peer, and the votes that it has given. -/
structure Voter (n : ℕ) (C D : Type) where
  raft : Raft n C D
  votes : List (ℤ × ℤ)

namespace Voter

variable (s : Voter n C D)

def step (c : Call n C D) : Option (Voter n C D) :=
  (s.raft.after c).map fun rf => ⟨rf, s.votes ++ (s.raft.grants c).toList⟩

/-- The vote that a restarted peer has kept was given before. -/
def machine (n : ℕ) (C D : Type) : Machine (Voter n C D) (Call n C D) where
  init s := ∃ me persister, s.raft = .make me persister ∧
    s.votes = if s.raft.votedFor = -1 then [] else [(s.raft.currentTerm, s.raft.votedFor)]
  step := step

/-- The peer's vote was given in its present term. -/
def Granted : Prop :=
  s.raft.votedFor ≠ -1 → (s.raft.currentTerm, s.raft.votedFor) ∈ s.votes

end Voter

namespace Raft

/-! ## What a call does to the term and the vote -/

/-- The ways in which the term and the vote change. -/
inductive Ballot (rf : Raft n C D) (c : Call n C D) (rf' : Raft n C D) : Prop
  | same : rf'.currentTerm = rf.currentTerm → rf'.votedFor = rf.votedFor → rf.grants c = none →
    rf.KeepsVote c → Ballot rf c rf'
  | later : rf.currentTerm < rf'.currentTerm → rf'.votedFor = -1 → rf.grants c = none →
    rf.KeepsVote c → Ballot rf c rf'
  | vote : rf.currentTerm ≤ rf'.currentTerm →
    (rf'.currentTerm = rf.currentTerm → rf.votedFor = -1 ∨ rf.votedFor = rf'.votedFor) →
    rf.grants c = some (rf'.currentTerm, rf'.votedFor) → rf.KeepsVote c → Ballot rf c rf'
  /-- The peer's own candidacy. -/
  | stood : rf'.currentTerm ≠ rf.currentTerm →
    rf.grants c = some (rf'.currentTerm, rf'.votedFor) →
    (rf.KeepsVote c ↔ rf.currentTerm < rf'.currentTerm) →
    (rf.NotBack c ↔ rf.currentTerm < rf'.currentTerm) → Ballot rf c rf'
  /-- A snapshot of a later term. -/
  | carried : rf.currentTerm < rf'.currentTerm → rf'.votedFor = rf.votedFor →
    rf.grants c = none → (rf.KeepsVote c ↔ rf.votedFor = -1) → Ballot rf c rf'
  /-- A reply with a later term than the request's. -/
  | replied : rf'.votedFor = -1 → rf.grants c = none →
    (rf.KeepsVote c ↔ rf.Fresh rf'.currentTerm) →
    (rf.NotBack c ↔ rf.currentTerm ≤ rf'.currentTerm) → Ballot rf c rf'

variable {rf rf' : Raft n C D}

theorem requestVote_ballot {args : RequestVoteArgs} {reply : RequestVoteReply}
    (h : rf.requestVote args = some (rf', reply)) : Ballot rf (.requestVote args) rf' := by
  have hgrants : rf.grants (.requestVote args) =
      if reply.voteGranted then some (rf'.currentTerm, args.candidateId) else none := by
    rw [grants, h, Option.bind_some]
  unfold requestVote at h
  split at h
  · cases h
    exact .same rfl rfl hgrants trivial
  rename_i hterm
  unfold requestVoteRest at h
  -- the state after the first `persist`
  obtain ⟨hv, ht⟩ | ⟨hlt, hv, ht⟩ :
      (rf.requestVoteTerm args).votedFor = rf.votedFor ∧
        (rf.requestVoteTerm args).currentTerm = rf.currentTerm ∨
      rf.currentTerm < args.term ∧ (rf.requestVoteTerm args).votedFor = -1 ∧
        (rf.requestVoteTerm args).currentTerm = args.term := by
    unfold requestVoteTerm
    split
    · exact .inr ⟨‹_›, rfl, rfl⟩
    · exact .inl ⟨rfl, rfl⟩
  · split at h
    · rename_i hfree
      rw [hv] at hfree
      obtain ⟨last, -, h⟩ := Option.bind_eq_some_iff.mp h
      split at h
      · cases h
        exact .vote ht.ge (fun _ => hfree) hgrants trivial
      · cases h
        exact .same ht hv hgrants trivial
    · cases h
      exact .same ht hv hgrants trivial
  · split at h
    · obtain ⟨last, -, h⟩ := Option.bind_eq_some_iff.mp h
      split at h
      · cases h
        refine .vote (hlt.le.trans ht.ge) (fun he => ?_) hgrants trivial
        change (rf.requestVoteTerm args).currentTerm = _ at he
        omega
      · cases h
        exact .later (hlt.trans_eq ht.symm) hv hgrants trivial
    · cases h
      exact .later (hlt.trans_eq ht.symm) hv hgrants trivial

theorem appendEntries_ballot {args : AppendEntriesArgs C} {reply : AppendEntriesReply}
    (h : rf.appendEntries args = some (rf', reply)) : Ballot rf (.appendEntries args) rf' := by
  unfold appendEntries at h
  split at h
  · cases h
    exact .same rfl rfl rfl trivial
  -- what comes after the first `persist` leaves both
  have hrest : rf'.currentTerm = (rf.appendEntriesTerm args).currentTerm ∧
      rf'.votedFor = (rf.appendEntriesTerm args).votedFor := by
    unfold appendEntriesRest at h
    split at h
    · cases h
      exact ⟨rfl, rfl⟩
    split at h
    · cases h
      exact ⟨rfl, rfl⟩
    obtain ⟨prev, -, h⟩ := Option.bind_eq_some_iff.mp h
    split at h
    · cases h
      exact ⟨rfl, rfl⟩
    obtain ⟨rf₁, h₁, h⟩ := Option.bind_eq_some_iff.mp h
    cases h
    obtain ⟨kept, -, h₁⟩ := Option.bind_eq_some_iff.mp h₁
    cases h₁
    exact ⟨rfl, rfl⟩
  unfold appendEntriesTerm at hrest
  split at hrest
  · rename_i hlt
    exact .later (hlt.trans_eq hrest.1.symm) hrest.2 rfl trivial
  · exact .same hrest.1 hrest.2 rfl trivial

theorem installSnapshot_ballot {args : InstallSnapshotArgs D} {reply : InstallSnapshotReply}
    (h : rf.installSnapshot args = some (rf', reply)) : Ballot rf (.installSnapshot args) rf' := by
  unfold installSnapshot at h
  split at h
  · rename_i hold
    cases h
    exact .same rfl rfl rfl fun hlt => absurd hold hlt.not_gt
  have hrest : rf'.currentTerm = (rf.installSnapshotTerm args).currentTerm ∧
      rf'.votedFor = rf.votedFor := by
    split at h
    · cases h
      exact ⟨rfl, rfl⟩
    · obtain ⟨rf₁, h₁, h⟩ := Option.map_eq_some_iff.mp h
      cases h
      obtain ⟨rest, -, rfl⟩ := Option.map_eq_some_iff.mp h₁
      exact ⟨rfl, rfl⟩
  unfold installSnapshotTerm at hrest
  by_cases hlt : rf.currentTerm < args.term
  · rw [if_pos hlt] at hrest
    exact .carried (hlt.trans_eq hrest.1.symm) hrest.2 rfl ⟨fun hk => hk hlt, fun hv _ => hv⟩
  · rw [if_neg hlt] at hrest
    exact .same hrest.1 hrest.2 rfl fun h => absurd h hlt

theorem startElectionInt_ballot {args : RequestVoteArgs}
    (h : rf.startElectionInt = some (rf', args)) : Ballot rf .election rf' := by
  have hgrants : rf.grants .election = some (rf'.currentTerm, (rf'.me : ℤ)) := by
    rw [grants, h, Option.map_some]
  unfold startElectionInt electionIn at h
  split at h
  · cases h
  obtain ⟨last, -, h⟩ := Option.bind_eq_some_iff.mp h
  cases h
  exact .stood (wrap_succ_ne _) hgrants (lt_wrap_succ_iff _).symm (lt_wrap_succ_iff _).symm

/-- A reply takes the peer to its term, or leaves both. -/
theorem reply_ballot {c : Call n C D} {sent t : ℤ} (hgrants : rf.grants c = none)
    (hkeeps : rf.KeepsVote c ↔ (sent < t → rf.Fresh t))
    (hback : rf.NotBack c ↔ (sent < t → rf.currentTerm ≤ t))
    (h : sent < t ∧ rf'.currentTerm = t ∧ rf'.votedFor = -1 ∨
      t ≤ sent ∧ rf'.currentTerm = rf.currentTerm ∧ rf'.votedFor = rf.votedFor) :
    Ballot rf c rf' := by
  obtain ⟨hlt, rfl, hv⟩ | ⟨hle, ht, hv⟩ := h
  · exact .replied hv hgrants (hkeeps.trans ⟨fun h => h hlt, fun h _ => h⟩)
      (hback.trans ⟨fun h => h hlt, fun h _ => h⟩)
  · exact .same ht hv hgrants (hkeeps.mpr fun hlt => absurd hlt hle.not_gt)

theorem voteReply_ballot (voteCount : ℕ) (args : RequestVoteArgs) (reply : RequestVoteReply) :
    Ballot rf (.voteReply voteCount args reply) (rf.voteReply voteCount args reply).1 := by
  refine reply_ballot rfl .rfl .rfl ?_
  unfold voteReply
  split
  · exact .inl ⟨‹_›, rfl, rfl⟩
  rename_i hle
  right
  split
  · exact ⟨not_lt.mp hle, rfl, rfl⟩
  generalize (if reply.voteGranted then voteCount + 1 else voteCount) = count
  dsimp only
  split <;> exact ⟨not_lt.mp hle, rfl, rfl⟩

theorem appendReply_ballot {target : Fin n} {args : AppendEntriesArgs C}
    {reply : AppendEntriesReply} (h : rf.appendReply target args reply = some rf') :
    Ballot rf (.appendReply target args reply) rf' := by
  refine reply_ballot rfl .rfl .rfl ?_
  unfold appendReply at h
  split at h
  · cases h
    exact .inl ⟨‹_›, rfl, rfl⟩
  rename_i hle
  refine .inr ⟨not_lt.mp hle, ?_⟩
  split at h
  · cases h
    exact ⟨rfl, rfl⟩
  split at h
  · obtain ⟨i, -, h⟩ := Option.bind_eq_some_iff.mp h
    cases h
    exact ⟨rfl, rfl⟩
  · unfold retreat at h
    split at h
    · cases h
      exact ⟨rfl, rfl⟩
    · obtain ⟨i, -, h⟩ := Option.bind_eq_some_iff.mp h
      cases h
      exact ⟨rfl, rfl⟩

theorem snapshotReply_ballot (target : Fin n) (args : InstallSnapshotArgs D)
    (reply : InstallSnapshotReply) :
    Ballot rf (.snapshotReply target args reply) (rf.snapshotReply target args reply) := by
  refine reply_ballot rfl .rfl .rfl ?_
  unfold snapshotReply
  split
  · exact .inl ⟨‹_›, rfl, rfl⟩
  rename_i hle
  right
  split <;> exact ⟨not_lt.mp hle, rfl, rfl⟩

/-- The seven paths. -/
theorem after_ballot {c : Call n C D} (h : rf.after c = some rf') : Ballot rf c rf' := by
  cases c with
  | requestVote args =>
    obtain ⟨⟨_, reply⟩, hr, rfl⟩ := Option.map_eq_some_iff.mp h
    exact requestVote_ballot hr
  | appendEntries args =>
    obtain ⟨⟨_, reply⟩, hr, rfl⟩ := Option.map_eq_some_iff.mp h
    exact appendEntries_ballot hr
  | installSnapshot args =>
    obtain ⟨⟨_, reply⟩, hr, rfl⟩ := Option.map_eq_some_iff.mp h
    exact installSnapshot_ballot hr
  | start command =>
    cases h
    refine .same ?_ ?_ rfl trivial <;> unfold start <;> split <;> rfl
  | snapshot index data =>
    change rf.doSnapshot index data = some rf' at h
    unfold doSnapshot at h
    split at h
    · cases h
      exact .same rfl rfl rfl trivial
    · obtain ⟨e, -, h⟩ := Option.bind_eq_some_iff.mp h
      obtain ⟨rest, -, h⟩ := Option.bind_eq_some_iff.mp h
      cases h
      exact .same rfl rfl rfl trivial
  | election =>
    obtain ⟨⟨_, args⟩, hr, rfl⟩ := Option.map_eq_some_iff.mp h
    exact startElectionInt_ballot hr
  | voteReply voteCount args reply =>
    cases h
    exact voteReply_ballot voteCount args reply
  | appendReply target args reply => exact appendReply_ballot h
  | snapshotReply target args reply =>
    cases h
    exact snapshotReply_ballot target args reply

/-- The term does not decrease if no reply takes the peer back. -/
theorem currentTerm_le {c : Call n C D} (hc : rf.NotBack c) (h : rf.after c = some rf') :
    rf.currentTerm ≤ rf'.currentTerm := by
  cases after_ballot h with
  | same ht _ _ _ => exact ht.ge
  | later hlt _ _ _ => exact hlt.le
  | vote hle _ _ _ => exact hle
  | stood _ _ _ hb => exact (hb.mp hc).le
  | carried hlt _ _ _ => exact hlt.le
  | replied _ _ _ hb => exact hb.mp hc

theorem VoteKept.refl (rf : Raft n C D) : rf.VoteKept rf := ⟨le_rfl, fun _ _ => rfl⟩

theorem VoteKept.trans {rf'' : Raft n C D} (h : rf.VoteKept rf') (h' : rf'.VoteKept rf'') :
    rf.VoteKept rf'' := by
  refine ⟨h.1.trans h'.1, fun he hv => ?_⟩
  have h1 := h.1
  have h2 := h'.1
  have hv' := h.2 (by omega) hv
  rw [h'.2 (by omega) (hv' ▸ hv), hv']

end Raft

namespace Voter

variable {s s' : Voter n C D}

/-- The peer's vote was given in its term, and no vote in a later one. -/
structure Honest (s : Voter n C D) : Prop where
  granted : s.Granted
  le : ∀ v ∈ s.votes, v.1 ≤ s.raft.currentTerm

/-- One step keeps the term and the vote exactly if its call meets the condition. -/
theorem step_iff (h : s.Honest) {c : Call n C D} (hs : s.step c = some s') :
    s.raft.VoteKept s'.raft ∧ s'.Honest ↔ s.raft.KeepsVote c := by
  obtain ⟨rf, hr, rfl⟩ := Option.map_eq_some_iff.mp hs
  have hgone {x : Option (ℤ × ℤ)} (hx : x = none) : s.votes ++ x.toList = s.votes := by
    rw [hx, Option.toList_none, List.append_nil]
  cases Raft.after_ballot hr with
  | same ht hv hn hk =>
    refine iff_of_true ⟨⟨ht.ge, fun _ _ => hv⟩, ?_⟩ hk
    rw [hgone hn]
    refine ⟨fun hne => ?_, fun v hm => (h.le v hm).trans ht.ge⟩
    dsimp only at hne ⊢
    rw [hv] at hne
    rw [ht, hv]
    exact h.granted hne
  | later hlt hv hn hk =>
    refine iff_of_true ⟨⟨hlt.le, fun he => absurd he hlt.ne'⟩, ?_⟩ hk
    rw [hgone hn]
    exact ⟨fun hne => absurd hv hne, fun v hm => (h.le v hm).trans hlt.le⟩
  | vote hle hfree hg hk =>
    refine iff_of_true ⟨⟨hle, fun he hv => ((hfree he).resolve_left hv).symm⟩, ?_⟩ hk
    rw [hg, Option.toList_some]
    refine ⟨fun _ => List.mem_append_right _ (List.mem_singleton.mpr rfl), fun v hm => ?_⟩
    obtain hm | hm := List.mem_append.mp hm
    · exact (h.le v hm).trans hle
    · rw [List.mem_singleton.mp hm]
  | stood hne hg hk _ =>
    rw [hk, hg, Option.toList_some]
    refine ⟨fun hkept => lt_of_le_of_ne hkept.1.1 hne.symm, fun hlt => ?_⟩
    refine ⟨⟨hlt.le, fun he => absurd he hne⟩,
      fun _ => List.mem_append_right _ (List.mem_singleton.mpr rfl), fun v hm => ?_⟩
    obtain hm | hm := List.mem_append.mp hm
    · exact (h.le v hm).trans hlt.le
    · rw [List.mem_singleton.mp hm]
  | carried hlt hv hn hk =>
    rw [hk, hgone hn]
    constructor
    · rintro ⟨-, hh⟩
      -- a vote of the new term would have been given before it
      by_contra hne
      have hm := hh.granted (fun h1 => hne (hv.symm.trans h1))
      exact absurd (h.le _ hm) hlt.not_ge
    · intro hfree
      exact ⟨⟨hlt.le, fun he => absurd he hlt.ne'⟩, fun hne => absurd (hv.trans hfree) hne,
        fun v hm => (h.le v hm).trans hlt.le⟩
  | replied hv hn hk _ =>
    rw [hk, hgone hn]
    constructor
    · rintro ⟨hkept, -⟩
      obtain hlt | heq := hkept.1.lt_or_eq
      · exact .inl hlt
      · refine .inr ⟨heq, ?_⟩
        by_contra hne
        exact hne ((hkept.2 heq.symm hne).symm.trans hv)
    · intro hf
      have hle : s.raft.currentTerm ≤ rf.currentTerm := hf.elim le_of_lt fun h => h.1.le
      refine ⟨⟨hle, fun he hne => ?_⟩, fun hne => absurd hv hne, fun v hm => (h.le v hm).trans hle⟩
      obtain hlt | hf := hf
      · exact absurd he hlt.ne'
      · exact absurd hf.2 hne

/-- The steps that meet the condition. -/
abbrev Meets (s : Voter n C D) (c : Call n C D) : Prop := s.raft.KeepsVote c

theorem honest_of_reach (hs : (machine n C D).Reach Meets s) : s.Honest := by
  refine hs.invariant (I := Honest) (fun s h0 => ?_) fun s c s' _ h ho hst =>
    ((step_iff h hst).mpr ho).2
  obtain ⟨me, persister, -, hv⟩ := h0
  by_cases hnone : s.raft.votedFor = -1
  · rw [if_pos hnone] at hv
    exact ⟨fun hne => absurd hnone hne, fun v hm => by rw [hv] at hm; cases hm⟩
  · rw [if_neg hnone] at hv
    refine ⟨fun _ => hv ▸ List.mem_singleton.mpr rfl, fun v hm => ?_⟩
    rw [hv] at hm
    rw [List.mem_singleton.mp hm]

/-- Over any stretch of a run the term does not decrease, within a term the vote stays, and it was
given by the peer in that term. -/
theorem votes_and_terms_kept {cs : List (Call n C D)} (hs : (machine n C D).Reach Meets s)
    (hr : (machine n C D).run Meets s cs = some s') :
    s.raft.VoteKept s'.raft ∧ s'.Granted := by
  induction cs generalizing s with
  | nil =>
    cases hr
    exact ⟨.refl _, (honest_of_reach hs).granted⟩
  | cons c cs ih =>
    simp only [Machine.run] at hr
    split at hr
    · rename_i ho
      obtain ⟨s₁, hst, hr⟩ := Option.bind_eq_some_iff.mp hr
      have hkept := ((step_iff (honest_of_reach hs) hst).mpr ho).1
      obtain ⟨hkept', hg⟩ := ih (.step hs ho hst) hr
      exact ⟨hkept.trans hkept', hg⟩
    · cases hr

/-- A peer that has just been started for the first time. -/
def fresh : Voter 3 ℕ Unit := ⟨.make 0 ⟨none, none⟩, []⟩

theorem fresh_init : (machine 3 ℕ Unit).init fresh := ⟨0, ⟨none, none⟩, rfl, rfl⟩

/-- The peer gives its vote to itself, and after a later request to the candidate of term 3. -/
theorem votes_and_terms_kept_later : ∃ s : Voter 3 ℕ Unit, s.raft.currentTerm = 3 ∧
    s.raft.votedFor = 2 ∧ fresh.raft.VoteKept s.raft ∧ s.Granted :=
  ⟨_, rfl, rfl, votes_and_terms_kept (.init fresh_init)
    (show (machine 3 ℕ Unit).run Meets fresh [.election, .requestVote ⟨3, 2, 0, 0⟩] = some _ from
      rfl)⟩

/-- The election of term 1, the vote for the candidate of term 3, and only then a reply of term 2
to the vote request of term 1: the peer is back in term 2, and may vote in term 3 once more. -/
theorem vote_lost : ¬ ∀ (s s' : Voter 3 ℕ Unit) (cs : List (Call 3 ℕ Unit)),
    (machine 3 ℕ Unit).Reachable s → (machine 3 ℕ Unit).run (fun _ _ => True) s cs = some s' →
    s.raft.VoteKept s'.raft ∧ s'.Granted := by
  intro h
  have hs : (machine 3 ℕ Unit).Reachable _ :=
    Machine.Reach.run [.election, .requestVote ⟨3, 2, 0, 0⟩] (.init fresh_init) rfl
  have hkept := (h _ _ [.voteReply 1 ⟨1, 0, 0, 0⟩ ⟨2, false⟩] hs rfl).1.1
  revert hkept
  decide

end Voter

end CollabIde
