import CollabIde.Raft.Refine

/-!
# Requests and calls of the service, refined

Each handler of a request, `Start` and `Snapshot` is matched by steps of the peer's node.
-/

namespace CollabIde

open Replication State

variable {n : ℕ} {C D : Type}

section Histories

variable {a : RaftState n C} {h g M : List (LogEntry C)} {e : LogEntry C} {p : ℕ}

theorem ends_of_mem (he : e ∈ h) : ∃ p, p ++ [e] <+: h := by
  obtain ⟨s, t, rfl⟩ := List.append_of_mem he
  exact ⟨s, by rw [show s ++ e :: t = (s ++ [e]) ++ t by simp]; exact List.prefix_append _ _⟩

/-- Entries have positive terms, as leaders have. -/
theorem pos_of_sound (hpos : LedPos a) (hs : Sound a h)
    (he : e ∈ h) : 0 < e.term := by
  obtain ⟨q, hq⟩ := ends_of_mem he
  obtain ⟨c, L, hL, -⟩ := hs q e hq
  exact hpos _ c L hL

/-- The comparison of `RequestVote` is the voting order. -/
theorem upToDate_of_last (hpos : ∀ e ∈ g, 0 < e.term)
    (hup : lastTerm g < lastTerm h ∨ lastTerm g = lastTerm h ∧ g.length ≤ h.length) :
    UpToDate h g := by
  rintro q f rfl
  rw [lastTerm_append_singleton] at hup
  have hf : 0 < f.term := hpos f (by simp)
  rcases List.eq_nil_or_concat h with rfl | ⟨p, e, rfl⟩
  · rw [lastTerm_nil] at hup; omega
  · rw [List.concat_eq_append, lastTerm_append_singleton] at hup
    exact ⟨p, e, List.concat_eq_append, by simpa using hup⟩

/-- Two sound histories with the same term at index `p` agree up to there. -/
theorem take_eq_of_lastTerm (hh : Sound a h) (hM : Sound a M) (hp : p ≤ h.length)
    (hpM : p ≤ M.length) (ht : lastTerm (h.take p) = lastTerm (M.take p)) :
    h.take p = M.take p := by
  cases p with
  | zero => simp
  | succ j =>
    have hj : j < h.length := hp
    have hjM : j < M.length := hpM
    rw [take_succ_eq hj, take_succ_eq hjM] at ht ⊢
    rw [lastTerm_append_singleton, lastTerm_append_singleton] at ht
    refine hh.matching hM (take_succ_eq hj ▸ List.take_prefix _ _)
      (take_succ_eq hjM ▸ List.take_prefix _ _) ?_ ht
    simp only [List.length_take]
    omega

end Histories

theorem Raft.appendEntriesTerm_log (rf : Raft n C D) (args : AppendEntriesArgs C) :
    (rf.appendEntriesTerm args).log = rf.log ∧
      (rf.appendEntriesTerm args).lastIncludedIndex = rf.lastIncludedIndex ∧
      (rf.appendEntriesTerm args).lastIncludedTerm = rf.lastIncludedTerm ∧
      (rf.appendEntriesTerm args).commitIndex = rf.commitIndex := by
  unfold Raft.appendEntriesTerm
  split <;> exact ⟨rfl, rfl, rfl, rfl⟩

namespace Refines

variable {Δ : Discipline} {a : RaftState n C} {v c : Fin n} {rf rf' : Raft n C D}
  {h M L : List (LogEntry C)} {k p : ℕ}

/-! ## Votes -/

theorem requestVoteTerm {args : RequestVoteArgs} (hr : Refines v rf (a.node v))
    (h0 : 0 ≤ args.term) (hle : rf.currentTerm ≤ args.term) :
    ∃ a', Local Δ v a a' ∧ Refines v (rf.requestVoteTerm args) (a'.node v) ∧
      (rf.requestVoteTerm args).currentTerm = args.term := by
  by_cases hlt : rf.currentTerm < args.term
  · refine ⟨a.reset v args.term, .of_set (.reset v args.term fun _ => .inl (hr.term ▸ hlt)), ?_, ?_⟩
    · rw [Raft.requestVoteTerm, if_pos hlt, State.reset, set_node_self]
      exact hr.stepDown h0
    · rw [Raft.requestVoteTerm, if_pos hlt]; rfl
  · refine ⟨a, .refl a, ?_, ?_⟩
    · rw [Raft.requestVoteTerm, if_neg hlt]; exact hr
    · rw [Raft.requestVoteTerm, if_neg hlt]; omega

theorem requestVoteRest {args : RequestVoteArgs} {reply : RequestVoteReply}
    (hr : Refines v rf (a.node v)) (hh : Histories a)
    (hpos : LedPos a) (hs : Stood a args c h)
    (ht : rf.currentTerm = args.term)
    (hrun : rf.requestVoteRest args = some (rf', reply)) :
    ∃ a', Local Δ v a a' ∧ Refines v rf' (a'.node v) ∧
      (reply.voteGranted = true → a'.voted v args.term c) := by
  have hsame : rf' = rf → reply.voteGranted = false → ∃ a', Local Δ v a a' ∧
      Refines v rf' (a'.node v) ∧ (reply.voteGranted = true → a'.voted v args.term c) := by
    rintro rfl h2
    exact ⟨a, .refl a, hr, fun h3 => by rw [h2] at h3; cases h3⟩
  unfold Raft.requestVoteRest at hrun
  split at hrun
  · rename_i hv
    obtain ⟨e, he, het⟩ := hr.last
    rw [he, Option.bind_eq_bind, Option.bind_some] at hrun
    split at hrun
    · rename_i hup
      simp only [Option.some.injEq, Prod.mk.injEq] at hrun
      obtain ⟨rfl, rfl⟩ := hrun
      rw [het, hs.lastLogTerm, hs.lastLogIndex, hr.lastLogIndex] at hup
      have hterm : (a.node v).term = args.term := hr.term.trans ht
      have hvote : (a.node v).vote = none ∨ (a.node v).vote = some c := by
        rw [hr.vote, hs.candidateId] at hv
        exact hv.imp voteId_eq_neg.mp voteId_eq.mp
      have hstep : Step Δ a (a.grant v c) := .grant v c h (hterm ▸ hs.stood) hvote
        (upToDate_of_last (fun e he => pos_of_sound hpos (hh.hist v) he) (by
          rcases hup with h1 | ⟨h1, h2⟩
          · exact .inl h1
          · exact .inr ⟨h1, by omega⟩))
      refine ⟨a.grant v c, .of_step hstep (fun w hw => ?_) (fun _ => rfl), ?_,
        fun _ => .inr ⟨rfl, hterm.symm, rfl⟩⟩
      · simp [State.grant, hw]
      · simp only [State.grant, set_node_self]
        exact {
          me := hr.me
          term := hr.term
          vote := hs.candidateId
          role := hr.role
          commit := hr.commit
          keeps := ⟨hr.keeps.log, hr.keeps.index, hr.keeps.term, hr.keeps.le⟩
          saved := by rw [hr.term]; rfl
          saved_nonneg := hr.term_nonneg
          term_nonneg := hr.term_nonneg
          busy := hr.busy }
    · simp only [Option.some.injEq, Prod.mk.injEq] at hrun
      obtain ⟨rfl, rfl⟩ := hrun
      exact hsame rfl rfl
  · simp only [Option.some.injEq, Prod.mk.injEq] at hrun
    obtain ⟨rfl, rfl⟩ := hrun
    exact hsame rfl rfl

theorem requestVote {args : RequestVoteArgs} {reply : RequestVoteReply}
    (hr : Refines v rf (a.node v)) (hR : Replication.Reach Δ 0 a)
    (hpos : LedPos a) (h0 : 0 ≤ args.term)
    (hs : Stood a args c h) (hrun : rf.requestVote args = some (rf', reply)) :
    ∃ a', Local Δ v a a' ∧ Refines v rf' (a'.node v) ∧
      (reply.voteGranted = true → a'.voted v args.term c) := by
  unfold Raft.requestVote at hrun
  split at hrun
  · simp only [Option.some.injEq, Prod.mk.injEq] at hrun
    obtain ⟨rfl, rfl⟩ := hrun
    exact ⟨a, .refl a, hr, fun h => by cases h⟩
  · rename_i hle
    obtain ⟨a₁, hl₁, hr₁, ht₁⟩ := hr.requestVoteTerm (Δ := Δ) h0 (not_lt.mp hle)
    obtain ⟨a₂, hl₂, hr₂, hv₂⟩ := hr₁.requestVoteRest (Δ := Δ) (.reach (hl₁.reach hR))
      (hpos.of_led hl₁.led) { hs with stood := (hl₁.grows hR).stood hs.stood } ht₁ hrun
    exact ⟨a₂, hl₁.trans hl₂, hr₂, hv₂⟩

/-! ## Appends -/

theorem appendEntriesTerm {args : AppendEntriesArgs C} (hr : Refines v rf (a.node v))
    (h0 : 0 ≤ args.term) (hle : rf.currentTerm ≤ args.term) :
    ∃ a', Local Δ v a a' ∧
      Refines v { rf.appendEntriesTerm args with currentRole := .follower } (a'.node v) ∧
      (rf.appendEntriesTerm args).currentTerm = args.term := by
  by_cases hlt : rf.currentTerm < args.term
  · refine ⟨a.reset v args.term, .of_set (.reset v args.term fun _ => .inl (hr.term ▸ hlt)), ?_, ?_⟩
    · rw [Raft.appendEntriesTerm, if_pos hlt, State.reset, set_node_self]
      exact hr.stepDown h0
    · rw [Raft.appendEntriesTerm, if_pos hlt]; rfl
  · refine ⟨a.demote v, .of_set (.demote v), ?_, ?_⟩
    · rw [Raft.appendEntriesTerm, if_neg hlt, State.demote, set_node_self]
      exact hr.demote
    · rw [Raft.appendEntriesTerm, if_neg hlt]; omega

/-- The log takes the history that was sent. -/
theorem appendNew {args : AppendEntriesArgs C} (hr : Refines v rf (a.node v))
    (hR : Replication.Reach Δ 0 a) (hD : Δ.commits → Δ.terms ∧ Δ.acks) (hs : Sent a args M k p)
    (ht : rf.currentTerm = args.term) (hrole : rf.currentRole = .follower)
    (hb : (a.node v).base ≤ p) (hp : p ≤ (a.node v).hist.length)
    (hM : (a.node v).hist.take p = M.take p)
    (hkeep : Δ.acks → ∀ e ∈ rf.behind args, e.term ≠ args.term)
    (hrun : rf.appendNew args = some rf') :
    ∃ a', Local Δ v a a' ∧ Refines v rf' (a'.node v) ∧ M.length ≤ a'.ack v args.term ∧
      (Δ.commits → rf.commitIndex ≤ rf'.commitIndex) := by
  have hterm : (a.node v).term = args.term := hr.term.trans ht
  have hpM := hs.le
  have hbehind : rf.behind args = (a.node v).hist.drop M.length := by
    rw [Raft.behind, hr.keeps.logIndex, hs.prevLogIndex, hr.keeps.log, hs.entries,
      List.length_drop, show ((p : ℤ) - (a.node v).base + 1 + (M.length - p : ℕ)).toNat =
        M.length - (a.node v).base + 1 by omega, trimmed_drop (by omega)]
  have hacc : Step Δ a (a.accept v M) := .accept v M k (hterm ▸ hs.sent) (hr.role.trans hrole)
    (by omega) fun hA x hx => hterm ▸ hkeep hA x (hbehind ▸ hx)
  have hl₁ : Local Δ v a (a.accept v M) :=
    .of_step hacc (fun w hw => by simp [State.accept, hw]) fun _ => rfl
  -- the new log
  rw [Raft.appendNew, hs.prevLogIndex, hr.keeps.entriesTo hb hp, Option.bind_eq_bind,
    Option.bind_some, hs.entries, trimmed_take_append hb hM] at hrun
  have hr₁ : Refines v { rf with log := trimmed M (a.node v).base }.persist
      ((a.accept v M).node v) := by
    simp only [State.accept, setAck_node, set_node_self]
    exact {
      me := hr.me
      term := hr.term
      vote := hr.vote
      role := hr.role
      commit := hr.commit
      keeps := ⟨rfl, hr.keeps.index, by
        have h1 := congrArg (List.take (a.node v).base) hM
        rw [List.take_take, List.take_take, min_eq_left hb] at h1
        exact hr.keeps.term.trans (congrArg lastTerm h1), hb.trans hpM⟩
      saved := by rw [hr.term]; rfl
      saved_nonneg := hr.term_nonneg
      term_nonneg := hr.term_nonneg
      busy := hr.busy }
  have hack : M.length ≤ (a.accept v M).ack v args.term := by
    simp [State.accept, setAck_ack, hterm]
  have hx : (a.accept v M).node v = { a.node v with hist := M, saved := (a.node v).term } := by
    simp [State.accept]
  obtain ⟨rf₁, hrf₁⟩ : ∃ r, r = { rf with log := trimmed M (a.node v).base }.persist := ⟨_, rfl⟩
  have hci : rf₁.commitIndex = rf.commitIndex := by rw [hrf₁]; rfl
  rw [← hrf₁] at hr₁ hrun
  have hlast : rf₁.lastLogIndex = M.length := by rw [hr₁.lastLogIndex, hx]
  simp only [Option.some.injEq] at hrun
  by_cases hlt : rf.commitIndex < args.leaderCommit
  · -- the commit index of the leader is learned
    have hk : Δ.commits → k ≤ M.length ∧ (a.accept v M).Committed (M.take k) args.term :=
      fun hC => (Completeness.reach (hD hC).1 (hD hC).2 hC (hl₁.reach hR)).sent
        ((hl₁.grows hR).sent hs.sent)
    have hlearn : Step Δ (a.accept v M) ((a.accept v M).learn v (min k M.length)) := by
      refine .learn v _ fun hC => ?_
      obtain ⟨h1, h2⟩ := hk hC
      have hb' := (Completeness.reach (hD hC).1 (hD hC).2 hC (hl₁.reach hR)).base v
      have hcom := hr.commit
      rw [hs.leaderCommit] at hlt
      rw [hx] at hb' ⊢
      rw [min_eq_left h1]
      exact ⟨hb'.trans (show (a.node v).commit ≤ k by omega), h1, hterm ▸ h2⟩
    have hnew : (if rf₁.commitIndex < args.leaderCommit then
        if args.leaderCommit < rf₁.lastLogIndex then args.leaderCommit else rf₁.lastLogIndex
        else rf₁.commitIndex) = ((min k M.length : ℕ) : ℤ) := by
      rw [hci, if_pos hlt, hlast, hs.leaderCommit]
      split
      · rw [min_eq_left (by omega)]
      · rw [min_eq_right (by omega)]
    subst hrun
    refine ⟨(a.accept v M).learn v (min k M.length), hl₁.trans (.of_set hlearn), ?_, hack,
      fun hC => ?_⟩
    · rw [State.learn, set_node_self]
      exact { hr₁ with
        commit := hnew
        keeps := ⟨hr₁.keeps.log, hr₁.keeps.index, hr₁.keeps.term, hr₁.keeps.le⟩ }
    · have h1 := (hk hC).1
      rw [hs.leaderCommit] at hlt
      rw [hnew, min_eq_left h1]
      exact hlt.le
  · subst hrun
    refine ⟨a.accept v M, hl₁, ?_, hack, fun _ => ?_⟩
    · simp only [hci, hlt, ↓reduceIte]
      rw [← hci]
      exact hr₁
    · simp only [hci, hlt, ↓reduceIte, le_refl]

theorem appendEntriesRest {args : AppendEntriesArgs C} {reply : AppendEntriesReply}
    (hr : Refines v rf (a.node v)) (hR : Replication.Reach Δ 0 a)
    (hD : Δ.commits → Δ.terms ∧ Δ.acks) (hs : Sent a args M k p)
    (ht : rf.currentTerm = args.term) (hrole : rf.currentRole = .follower)
    (hkeep : Δ.acks → rf.KeepsEntries args)
    (hrun : rf.appendEntriesRest args = some (rf', reply)) :
    ∃ a', Local Δ v a a' ∧ Refines v rf' (a'.node v) ∧
      (reply.success = true → M.length ≤ a'.ack v args.term) ∧
      (Δ.commits → rf.commitIndex ≤ rf'.commitIndex) := by
  unfold Raft.appendEntriesRest at hrun
  split at hrun
  · simp only [Option.some.injEq, Prod.mk.injEq] at hrun
    obtain ⟨rfl, rfl⟩ := hrun
    exact ⟨a, .refl a, hr, nofun, fun _ => le_rfl⟩
  rename_i h1
  split at hrun
  · simp only [Option.some.injEq, Prod.mk.injEq] at hrun
    obtain ⟨rfl, rfl⟩ := hrun
    exact ⟨a, .refl a, hr, nofun, fun _ => le_rfl⟩
  rename_i h2
  obtain ⟨p', hp', hb, hp⟩ := hr.keeps.nat_of_le (not_lt.mp h2) (not_lt.mp h1)
  obtain rfl : p' = p := by have := hs.prevLogIndex; omega
  obtain ⟨e, he, het, -⟩ := hr.keeps.entry hb hp
  rw [hp', he, Option.bind_eq_bind, Option.bind_some] at hrun
  split at hrun
  · simp only [Option.some.injEq, Prod.mk.injEq] at hrun
    obtain ⟨rfl, rfl⟩ := hrun
    exact ⟨a, .refl a, hr, nofun, fun _ => le_rfl⟩
  rename_i h3
  rw [not_not] at h3
  obtain ⟨rf₁, hrun₁, h4⟩ := Option.bind_eq_some_iff.mp hrun
  simp only [Option.some.injEq, Prod.mk.injEq] at h4
  obtain ⟨rfl, rfl⟩ := h4
  have hh : Histories a := .reach hR
  have hM := take_eq_of_lastTerm (hh.hist v) (hh.sent_isPrefix hs.sent) hp hs.le
    (by rw [← het, h3, hs.prevLogTerm])
  obtain ⟨a', hl, hr', hack, hcom⟩ := hr.appendNew (Δ := Δ) hR hD hs ht hrole hb hp hM
    (fun hA => hkeep hA ⟨ht.le, not_lt.mp h2, not_lt.mp h1, by rw [hp', he]; simp [h3]⟩) hrun₁
  exact ⟨a', hl, hr', fun _ => hack, hcom⟩

theorem appendEntries {args : AppendEntriesArgs C} {reply : AppendEntriesReply}
    (hr : Refines v rf (a.node v)) (hR : Replication.Reach Δ 0 a)
    (hD : Δ.commits → Δ.terms ∧ Δ.acks) (h0 : 0 ≤ args.term) (hs : Sent a args M k p)
    (hkeep : Δ.acks → rf.KeepsEntries args)
    (hrun : rf.appendEntries args = some (rf', reply)) :
    ∃ a', Local Δ v a a' ∧ Refines v rf' (a'.node v) ∧
      (reply.success = true → M.length ≤ a'.ack v args.term) ∧
      (Δ.commits → rf.commitIndex ≤ rf'.commitIndex) := by
  unfold Raft.appendEntries at hrun
  split at hrun
  · simp only [Option.some.injEq, Prod.mk.injEq] at hrun
    obtain ⟨rfl, rfl⟩ := hrun
    exact ⟨a, .refl a, hr, nofun, fun _ => le_rfl⟩
  · rename_i hle
    obtain ⟨a₁, hl₁, hr₁, ht₁⟩ := hr.appendEntriesTerm (Δ := Δ) h0 (not_lt.mp hle)
    have hlog := rf.appendEntriesTerm_log args
    have hkeep₁ : Δ.acks →
        { rf.appendEntriesTerm args with currentRole := .follower }.KeepsEntries args := by
      rintro hA ⟨-, h1, h2, h3⟩
      have h4 := hkeep hA
      unfold Raft.KeepsEntries Raft.Accepts Raft.behind at h4
      simp only [Raft.entry, Raft.lastLogIndex, Raft.logIndex, Raft.behind, hlog.1, hlog.2.1]
        at h1 h2 h3 h4 ⊢
      exact h4 ⟨not_lt.mp hle, h1, h2, h3⟩
    obtain ⟨a₂, hl₂, hr₂, hv₂, hc₂⟩ := hr₁.appendEntriesRest (Δ := Δ) (hl₁.reach hR) hD
      (hs.mono (hl₁.grows hR)) ht₁ rfl hkeep₁ hrun
    exact ⟨a₂, hl₁.trans hl₂, hr₂, hv₂, fun hC => hlog.2.2.2 ▸ hc₂ hC⟩

/-! ## Snapshots -/

/-- The log after a snapshot of the leader's first entries `m`. -/
theorem install {m : List (LogEntry C)} {log : List (LogEntry C)} {data : Option D} {t j : ℤ}
    (hr : Refines v rf (a.node v)) (hm : lastTerm m = t) (hj : (m.length : ℤ) = j)
    (hlog : log = trimmed (installed (a.node v).hist m) m.length) :
    Refines v { rf with
        log := log
        lastIncludedIndex := j
        lastIncludedTerm := t
        snapshot := data
        commitIndex := if rf.commitIndex < j then j else rf.commitIndex }.persist
      ((a.install v m).node v) := by
  subst hj
  rw [State.install, set_node_self]
  exact {
    me := hr.me
    term := hr.term
    vote := hr.vote
    role := hr.role
    commit := by
      simp only [Raft.persist_commitIndex, hr.commit]
      split
      · rw [max_eq_right (by omega)]
      · rw [max_eq_left (by omega)]
    keeps := ⟨hlog, rfl, by
      have hp : m <+: installed (a.node v).hist m := by
        by_cases h : m <+: (a.node v).hist
        · rw [installed_of_isPrefix h]; exact h
        · rw [installed_of_not_isPrefix h]
      exact hm.symm.trans (congrArg lastTerm (List.prefix_iff_eq_take.mp hp)),
      length_le_installed _ _⟩
    saved := by rw [hr.term]; rfl
    saved_nonneg := hr.term_nonneg
    term_nonneg := hr.term_nonneg
    busy := hr.busy }

/-- The peer has the snapshot's last entry if its history starts with what the snapshot holds. -/
theorem hasSnapshot {args : InstallSnapshotArgs D} (hr : Refines v rf (a.node v))
    (hh : Histories a) (hs : Snapped a args k c L) (hb : (a.node v).base < k) :
    ∃ b, rf.hasSnapshot args = some b ∧ (b = true ↔ L.take k <+: (a.node v).hist) := by
  have hm : (L.take k).length = k := by rw [List.length_take]; exact min_eq_left hs.le
  unfold Raft.hasSnapshot
  rw [hs.index, hr.lastLogIndex]
  split
  · rename_i hlen
    have hlen' : k ≤ (a.node v).hist.length := by omega
    obtain ⟨e, he, het, -⟩ := hr.keeps.entry hb.le hlen'
    refine ⟨_, by rw [he, Option.map_some], ?_⟩
    rw [decide_eq_true_iff, het, hs.term]
    constructor
    · intro h
      rw [← take_eq_of_lastTerm (hh.hist v) (hh.ldr hs.ldr) hlen' hs.le h]
      exact List.take_prefix _ _
    · intro h
      rw [List.prefix_iff_eq_take, hm] at h
      rw [← h]
  · refine ⟨false, rfl, ⟨nofun, fun h => ?_⟩⟩
    have := h.length_le
    omega

theorem installNew {args : InstallSnapshotArgs D} (hr : Refines v rf (a.node v))
    (hh : Histories a) (hs : Snapped a args k c L) (hb : (a.node v).base < k)
    (hrun : rf.installNew args = some rf') :
    Refines v rf' ((a.install v (L.take k)).node v) := by
  have hm : (L.take k).length = k := by rw [List.length_take]; exact min_eq_left hs.le
  obtain ⟨keep, hkeep, hk⟩ := hr.hasSnapshot hh hs hb
  obtain ⟨rest, hrest, rfl⟩ := Option.map_eq_some_iff.mp hrun
  rw [Raft.afterSnapshot, hkeep, Option.bind_eq_bind, Option.bind_some] at hrest
  refine hr.install hs.term.symm (by rw [hm, hs.index]) ?_
  rw [hm, hs.term]
  split at hrest
  · have hp := hk.mp ‹_›
    have hlen := hp.length_le
    rw [hm] at hlen
    rw [hs.index, hr.keeps.entriesFrom hb.le hlen, Option.some.injEq] at hrest
    rw [installed_of_isPrefix hp, trimmed, ← hrest]
    rw [List.prefix_iff_eq_take, hm] at hp
    rw [← hp]
  · rw [Option.some.injEq] at hrest
    rw [installed_of_not_isPrefix fun h => ‹¬ keep = true› (hk.mpr h), trimmed, ← hrest]
    simp [List.take_take]

theorem installSnapshotTerm {args : InstallSnapshotArgs D} (hr : Refines v rf (a.node v))
    (hle : rf.currentTerm ≤ args.term) :
    ∃ a', Local Δ v a a' ∧ Refines v (rf.installSnapshotTerm args) (a'.node v) ∧
      (a'.node v).term = args.term ∧ (a'.node v).role = .follower ∧
      (a'.node v).base = (a.node v).base := by
  by_cases hlt : rf.currentTerm < args.term
  · refine ⟨a.raise v args.term, .of_set (.raise v args.term (hr.term ▸ hlt)), ?_, ?_⟩
    · rw [Raft.installSnapshotTerm, if_pos hlt, State.raise, set_node_self]
      exact hr.raise hlt.le
    · simp [State.raise]
  · refine ⟨a.demote v, .of_set (.demote v), ?_, ?_, ?_⟩
    · rw [Raft.installSnapshotTerm, if_neg hlt, State.demote, set_node_self]
      exact hr.demote
    · simp only [State.demote, set_node_self]
      have := hr.term
      omega
    · simp [State.demote]

theorem installSnapshot {args : InstallSnapshotArgs D} {reply : InstallSnapshotReply}
    (hr : Refines v rf (a.node v)) (hR : Replication.Reach Δ 0 a)
    (hs : Snapped a args k c L) (hrun : rf.installSnapshot args = some (rf', reply)) :
    ∃ a', Local Δ v a a' ∧ Refines v rf' (a'.node v) ∧
      (reply.term ≤ args.term → args.lastIncludedIndex ≤ (a'.node v).base) := by
  unfold Raft.installSnapshot at hrun
  split at hrun
  · simp only [Option.some.injEq, Prod.mk.injEq] at hrun
    obtain ⟨rfl, rfl⟩ := hrun
    exact ⟨a, .refl a, hr, fun h => absurd h (by simpa using ‹args.term < rf.currentTerm›)⟩
  rename_i hle
  obtain ⟨a₁, hl₁, hr₁, ht₁, hrole, hb₁⟩ := hr.installSnapshotTerm (Δ := Δ) (not_lt.mp hle)
  split at hrun
  · simp only [Option.some.injEq, Prod.mk.injEq] at hrun
    obtain ⟨rfl, rfl⟩ := hrun
    exact ⟨a₁, hl₁, hr₁, fun _ => by rw [hb₁, ← hr.keeps.index]; assumption⟩
  rename_i hstale
  obtain ⟨rf₂, hrun₂, h2⟩ := Option.map_eq_some_iff.mp hrun
  simp only [Prod.mk.injEq] at h2
  obtain ⟨rfl, rfl⟩ := h2
  obtain ⟨L₁, hs₁⟩ := hs.mono (hl₁.grows hR)
  have hh : Histories a₁ := .reach (hl₁.reach hR)
  have hm : (L₁.take k).length = k := by rw [List.length_take]; exact min_eq_left hs₁.le
  have hbk : (a₁.node v).base < k := by
    rw [hs.index, hr.keeps.index] at hstale
    omega
  have hstep : Step Δ a₁ (a₁.install v (L₁.take k)) := .install v c L₁ (L₁.take k)
    (by rw [ht₁, hm]; exact hs₁.snap) (by rw [ht₁]; exact hs₁.ldr) (List.take_prefix _ _) hrole
    (by rw [hm]; exact hbk)
  refine ⟨a₁.install v (L₁.take k), hl₁.trans (.of_set hstep),
    hr₁.installNew hh hs₁ hbk hrun₂, fun _ => ?_⟩
  rw [hs.index, State.install, set_node_self, hm]

/-! ## Calls of the service -/

theorem start (hr : Refines v rf (a.node v)) (hh : Histories a) (command : Option C) :
    ∃ a', Local Δ v a a' ∧ Refines v (rf.start command).1 (a'.node v) := by
  unfold Raft.start
  split
  · exact ⟨a, .refl a, hr⟩
  · rename_i hrole
    rw [ne_eq, not_not] at hrole
    have hrole' : (a.node v).role = .leader := hr.role.trans hrole
    have hstep : Step Δ a (a.append v ⟨rf.currentTerm, command⟩) :=
      .append v _ hrole' hr.term.symm
    refine ⟨_, .of_step hstep (fun w hw => by simp [State.append, hw]) fun t => ?_, ?_⟩
    · simp only [State.append, setAck_ldr, setLdr_ldr]
      split
      · subst_vars; rw [hh.leader hrole']; rfl
      · rfl
    · simp only [State.append, setAck_node, setLdr_node, set_node_self]
      exact {
        me := hr.me
        term := hr.term
        vote := hr.vote
        role := hr.role
        commit := hr.commit
        keeps := ⟨by
          simp only [Raft.persist_log, hr.keeps.log]
          exact trimmed_append hr.keeps.le, hr.keeps.index, by
          simp only [Raft.persist_lastIncludedTerm, hr.keeps.term,
            List.take_append_of_le_length hr.keeps.le], by
          have := hr.keeps.le
          simp only [List.length_append]
          omega⟩
        saved := by rw [hr.term]; rfl
        saved_nonneg := hr.term_nonneg
        term_nonneg := hr.term_nonneg
        busy := hr.busy }

theorem doSnapshot {index : ℤ} {data : Option D} (hr : Refines v rf (a.node v))
    (hC : Δ.commits → index ≤ rf.commitIndex) (hrun : rf.doSnapshot index data = some rf') :
    ∃ a', Local Δ v a a' ∧ Refines v rf' (a'.node v) := by
  unfold Raft.doSnapshot at hrun
  split at hrun
  · rw [Option.some.injEq] at hrun
    exact ⟨a, .refl a, hrun ▸ hr⟩
  rename_i hin
  have hlen := hr.keeps.length
  rw [hr.keeps.index, hr.keeps.logIndex] at hin
  obtain ⟨j, rfl⟩ : ∃ j : ℕ, index = j := ⟨index.toNat, by omega⟩
  have hle := hr.keeps.le
  have hbj : (a.node v).base ≤ j := by omega
  have hj : j ≤ (a.node v).hist.length := by omega
  obtain ⟨e, he, het, -⟩ := hr.keeps.entry hbj hj
  rw [he, hr.keeps.entriesFrom hbj hj] at hrun
  simp only [Option.bind_eq_bind, Option.bind_some, Option.some.injEq] at hrun
  subst hrun
  have hstep : Step Δ a (a.compact v j) := .compact v j hbj hj fun h => by
    have h1 := hC h
    have h2 := hr.commit
    omega
  refine ⟨a.compact v j, .of_set hstep, ?_⟩
  rw [State.compact, set_node_self]
  exact {
    me := hr.me
    term := hr.term
    vote := hr.vote
    role := hr.role
    commit := hr.commit
    keeps := ⟨by rw [trimmed, ← het]; rfl, rfl, het, hj⟩
    saved := by rw [hr.term]; rfl
    saved_nonneg := hr.term_nonneg
    term_nonneg := hr.term_nonneg
    busy := hr.busy }

end Refines

end CollabIde
