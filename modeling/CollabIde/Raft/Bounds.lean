import CollabIde.Raft.Acknowledged
import CollabIde.Raft.Committed
import CollabIde.Raft.Safety

/-!
# No index outside the log

In a run whose replies carry fresh terms, whose appends keep the leader's entries and whose
snapshots are of applied indices, the indices of a peer stay in order and inside its log
(`log_in_bounds`), so that no handler, heartbeat round or applier round uses a bound outside the
entries that the log holds. An append that drops acknowledged entries leaves a commit index behind
the end of the log (`log_out_of_bounds`).

`Progress` is the invariant about leaders' indices and the applier; `runs_induction` proves more
invariants along the same runs.
-/

namespace CollabIde

open Replication State Cluster

variable {n : ℕ} {C D : Type}

/-- A step under which the state machines stay safe. -/
def Disciplined (s : Cluster n C D) (x : Action n C D) : Prop :=
  s.FreshTerm x ∧ s.KeepsEntries x ∧ s.SnapshotApplied x

instance (s : Cluster n C D) (x : Action n C D) : Decidable (Disciplined s x) :=
  inferInstanceAs (Decidable (_ ∧ _))

/-- All disciplines of the replication. -/
abbrev full : Discipline := ⟨True, True, True⟩

/-- The bound that a failed append gives to the leader. -/
def AppendEntriesReply.hint (reply : AppendEntriesReply) : ℤ :=
  if reply.xTerm = -1 then reply.xLen else reply.xIndex

/-- The indices of leaders and appliers, and what messages in flight will make of them. -/
structure Progress (s : Cluster n C D) (a : RaftState n C) : Prop where
  counted : ∀ i, (s.proc i).raft.currentRole = .leader → ∀ j,
    (s.proc i).raft.matchIndex j ≤ a.ack j (s.proc i).raft.currentTerm ∨
      (s.proc i).raft.matchIndex j ≤ (s.proc i).raft.commitIndex
  next : ∀ i, (s.proc i).raft.currentRole = .leader → ∀ j,
    (s.proc i).raft.nextIndex j ≤ (s.proc i).raft.lastLogIndex + 1
  applied : ∀ i, (s.proc i).raft.lastApplied ≤ (s.proc i).raft.commitIndex
  requestEpoch : ∀ q ∈ s.requests, q.epoch ≤ (s.proc q.source).epoch
  replyEpoch : ∀ q ∈ s.replies, q.epoch ≤ (s.proc q.source).epoch
  request : ∀ q ∈ s.requests, q.epoch = (s.proc q.source).epoch → ∀ args,
    q.body = .snapshot args → args.lastIncludedIndex ≤ (s.proc q.source).raft.commitIndex
  reply : ∀ q ∈ s.replies, q.epoch = (s.proc q.source).epoch → ∀ args reply,
    q.body = .snapshot args reply → args.lastIncludedIndex ≤ (s.proc q.source).raft.commitIndex
  hint : ∀ q ∈ s.replies, ∀ args reply, q.body = .append args reply → reply.success = false →
    reply.term ≤ args.term →
    ∃ c L, a.ldr args.term = some (c, L) ∧ reply.hint ≤ (List.length L : ℤ) + 1

theorem Progress.initial {a : RaftState n C} : Progress (Cluster.initial : Cluster n C D) a where
  counted i h := by cases h
  next i h := by cases h
  applied i := le_rfl
  requestEpoch q hq := by cases hq
  replyEpoch q hq := by cases hq
  request q hq := by cases hq
  reply q hq := by cases hq
  hint q hq := by cases hq

/-! ## The hint of a failed append -/

theorem Raft.firstOfTerm_le {rf : Raft n C D} {i : ℤ} {e : LogEntry C} (he : rf.entry i = some e)
    (hi : rf.lastIncludedIndex ≤ i) : rf.firstOfTerm e.term ≤ i := by
  unfold Raft.entry get Raft.logIndex at he
  rw [if_pos (by omega)] at he
  obtain ⟨hlt, hget⟩ := List.getElem?_eq_some_iff.mp he
  unfold Raft.firstOfTerm
  cases hf : rf.log.findIdx? fun e' => e'.term = e.term with
  | none =>
    rw [List.findIdx?_eq_none_iff] at hf
    have := hf e (hget ▸ List.getElem_mem hlt)
    simp at this
  | some k =>
    obtain ⟨-, hk⟩ := List.findIdx?_eq_some_iff_getElem.mp hf |>.2
    simp only
    by_contra hlt'
    have := hk (i - rf.lastIncludedIndex).toNat (by omega)
    rw [hget] at this
    simp at this

/-- A failed append of the peer's term hints at an index up to `PrevLogIndex`, or behind the
peer's snapshot. -/
theorem Refines.hint {v : Fin n} {rf rf' : Raft n C D} {a : RaftState n C}
    {args : AppendEntriesArgs C} {reply : AppendEntriesReply} (hr : Refines v rf (a.node v))
    (hh : Histories a) (hpos : LedPos a) (hrun : rf.appendEntries args = some (rf', reply))
    (hfail : reply.success = false) (hle : reply.term ≤ args.term) :
    rf'.currentTerm = args.term ∧
      (reply.hint ≤ args.prevLogIndex ∨ reply.hint = rf'.lastIncludedIndex + 1) := by
  unfold Raft.appendEntries at hrun
  split at hrun
  · rename_i hlt
    cases hrun
    exact absurd hle (not_le.mpr hlt)
  rename_i hterm
  obtain ⟨h1, h2, h3, -⟩ := rf.appendEntriesTerm_log args
  obtain ⟨-, -, -, hterm'⟩ := hr.appendEntriesTerm (Δ := full)
    ((hr.term ▸ hr.term_nonneg).trans (not_lt.mp hterm)) (not_lt.mp hterm)
  obtain ⟨rf₁, hrf₁⟩ : ∃ r, r = { rf.appendEntriesTerm args with currentRole := .follower } :=
    ⟨_, rfl⟩
  rw [← hrf₁] at hrun
  have hterm₁ : rf₁.currentTerm = args.term := by rw [hrf₁]; exact hterm'
  have hk : rf₁.Keeps (a.node v).hist (a.node v).base := by
    rw [hrf₁]
    exact ⟨h1.trans hr.keeps.log, h2.trans hr.keeps.index, h3.trans hr.keeps.term, hr.keeps.le⟩
  unfold Raft.appendEntriesRest at hrun
  split at hrun
  · cases hrun
    refine ⟨hterm₁, .inl ?_⟩
    simp only [AppendEntriesReply.hint, ↓reduceIte]
    omega
  rename_i hlast
  split at hrun
  · cases hrun
    exact ⟨hterm₁, .inr (by simp [AppendEntriesReply.hint])⟩
  rename_i hlii
  obtain ⟨e, he, hrun⟩ := Option.bind_eq_some_iff.mp hrun
  split at hrun
  · cases hrun
    refine ⟨hterm₁, .inl ?_⟩
    -- entries have no negative term, so the hint is `XIndex`
    obtain ⟨p, hp, hb, hlen⟩ := hk.nat_of_le (not_lt.mp hlii) (not_lt.mp hlast)
    obtain ⟨e', he', het, -⟩ := hk.entry hb hlen
    rw [hp, he', Option.some.injEq] at he
    subst he
    have h0 : 0 ≤ e'.term := het ▸ lastTerm_nonneg fun x hx =>
      pos_of_sound hpos (hh.hist v) (List.mem_of_mem_take hx)
    rw [AppendEntriesReply.hint, if_neg (by simp only; omega), hp]
    exact Raft.firstOfTerm_le he' (by omega)
  · obtain ⟨rf₂, -, hrun⟩ := Option.bind_eq_some_iff.mp hrun
    cases hrun
    cases hfail

/-! ## A step -/

namespace Progress

variable {s s' : Cluster n C D} {a a' : RaftState n C} {x : Action n C D} {i : Fin n}

/-- A step and its counterpart. -/
structure Paired (s : Cluster n C D) (a : RaftState n C) (x : Action n C D) (s' : Cluster n C D)
    (a' : RaftState n C) : Prop where
  refined : Refined s a
  reach : Replication.Reach full 0 a
  refined' : Refined s' a'
  reach' : Replication.Reach full 0 a'
  grows : Grows a a'
  ok : Disciplined s x
  step : s.step x = some s'

namespace Paired

variable (c : Paired s a x s' a')
include c

theorem histories : Histories a := .reach c.reach
theorem histories' : Histories a' := .reach c.reach'
theorem completeness : Completeness a := .reach trivial trivial trivial c.reach
theorem completeness' : Completeness a' := .reach trivial trivial trivial c.reach'

/-- The snapshot of a peer is of a committed index. -/
theorem base_le (i : Fin n) :
    (s.proc i).raft.lastIncludedIndex ≤ (s.proc i).raft.commitIndex := by
  have h := c.completeness.base i
  rw [(c.refined.peer i).keeps.index, (c.refined.peer i).commit]
  omega

/-- The commit index of a peer that does not restart grows. -/
theorem commit_le (he : (s'.proc i).epoch = (s.proc i).epoch) :
    (s.proc i).raft.commitIndex ≤ (s'.proc i).raft.commitIndex := by
  cases hx : x.handled with
  | none => exact commitIndex_le c.step hx he
  | some k =>
    cases x with
    | handle k =>
      obtain ⟨q, hq, hs⟩ := Option.bind_eq_some_iff.mp c.step
      obtain ⟨⟨rf, answer⟩, hrun, hs⟩ := Option.bind_eq_some_iff.mp hs
      cases hs
      by_cases hi : i = q.target
      · subst hi
        obtain ⟨-, -, -, -, hcom⟩ := (c.refined.peer q.target).serve c.reach
          (fun _ => ⟨trivial, trivial⟩) c.refined.led
          (c.refined.requests q (List.mem_of_getElem? hq))
          (fun _ args hb => c.ok.2.1 k rfl q hq args (by rw [hb]; rfl)) hrun
        simpa [setRaft, setProc] using hcom trivial
      · simp [setRaft, setProc, hi]
    | _ => cases hx

/-- A leader's log of one term grows. -/
theorem lastLogIndex_le (hl : (s.proc i).raft.currentRole = .leader)
    (hl' : (s'.proc i).raft.currentRole = .leader)
    (ht : (s'.proc i).raft.currentTerm = (s.proc i).raft.currentTerm) :
    (s.proc i).raft.lastLogIndex ≤ (s'.proc i).raft.lastLogIndex := by
  have h1 := c.histories.leader ((c.refined.peer i).role.trans hl)
  have h2 := c.histories'.leader ((c.refined'.peer i).role.trans hl')
  rw [(c.refined.peer i).term] at h1
  rw [(c.refined'.peer i).term, ht] at h2
  obtain ⟨L, hL, hp⟩ := c.grows.ldr h1
  rw [h2] at hL
  cases hL
  rw [(c.refined.peer i).lastLogIndex, (c.refined'.peer i).lastLogIndex]
  exact_mod_cast hp.length_le

/-- The last index of a leader is the length of the history on record. -/
theorem lastLogIndex_eq {d : Fin n} {L : List (LogEntry C)}
    (hl : (s.proc i).raft.currentRole = .leader)
    (hL : a.ldr (s.proc i).raft.currentTerm = some (d, L)) :
    (s.proc i).raft.lastLogIndex = L.length := by
  have h1 := c.histories.leader ((c.refined.peer i).role.trans hl)
  rw [(c.refined.peer i).term, hL] at h1
  cases h1
  exact (c.refined.peer i).lastLogIndex

end Paired

variable (h : Progress s a) (c : Paired s a x s' a')
include h c

theorem step_counted (hlead : (s'.proc i).raft.currentRole = .leader) (j : Fin n) :
    (s'.proc i).raft.matchIndex j ≤ a'.ack j (s'.proc i).raft.currentTerm ∨
      (s'.proc i).raft.matchIndex j ≤ (s'.proc i).raft.commitIndex := by
  have hmono : ∀ {m t : ℤ}, (s'.proc i).epoch = (s.proc i).epoch →
      m ≤ a.ack j t ∨ m ≤ (s.proc i).raft.commitIndex →
      m ≤ a'.ack j t ∨ m ≤ (s'.proc i).raft.commitIndex := fun {m t} he hm => by
    have h1 := c.grows.ack j t
    have h2 := c.commit_le he
    omega
  cases (stepped c.step).peer i with
  | continues he _ hc _ =>
    rw [hc.matchIndex hlead, hc.term hlead]
    exact hmono he (h.counted i (hc.role hlead) j)
  | applies he hrun =>
    obtain ⟨k, hrf⟩ := Raft.applier_eq hrun
    rw [hrf] at hlead
    have := hmono he (h.counted i hlead j)
    rw [hrf] at this ⊢
    exact this
  | restart rf _ _ hrf => rw [hrf, Raft.make_currentRole] at hlead; cases hlead
  | win _ _ hrf =>
    rw [hrf]
    exact .inl (by simp [Raft.becomeLeader])
  | appended q args reply he _ hq _ _ hb _ ht hl hrep =>
    have hans := c.refined.replies q hq
    rw [hb] at hans
    obtain ⟨-, -, hack⟩ := hans
    have hold := hmono he (h.counted i hl j)
    have htarget : ∀ m : ℤ, m ≤ a.ack q.target (s.proc i).raft.currentTerm →
        m ≤ a'.ack q.target (s.proc i).raft.currentTerm := fun m hm => hm.trans (by
      exact_mod_cast c.grows.ack q.target _)
    generalize (s'.proc i).raft = rf' at hrep hold ⊢
    cases hrep with
    | advance hsucc _ =>
      simp only at hold ⊢
      by_cases hj : j = q.target
      · subst hj
        rw [Function.update_self]
        exact .inl (htarget _ (ht ▸ hack hsucc))
      · rw [Function.update_of_ne hj]
        exact hold
    | retreat _ _ => exact hold
  | snapped q args reply he _ hq hal hsrc hb hle ht hl hrf =>
    subst hsrc
    have hold := hmono he (h.counted q.source hl j)
    have hnew := h.reply q hq hal args reply hb
    rw [hrf] at hold ⊢
    simp only at hold ⊢
    by_cases hj : j = q.target
    · subst hj
      rw [Function.update_self]
      exact .inr hnew
    · rw [Function.update_of_ne hj]
      exact hold

theorem step_next (hlead : (s'.proc i).raft.currentRole = .leader) (j : Fin n) :
    (s'.proc i).raft.nextIndex j ≤ (s'.proc i).raft.lastLogIndex + 1 := by
  cases (stepped c.step).peer i with
  | continues he _ hc _ =>
    have h1 := h.next i (hc.role hlead) j
    have h2 := c.lastLogIndex_le (hc.role hlead) hlead (hc.term hlead)
    rw [hc.nextIndex hlead]
    omega
  | applies he hrun =>
    obtain ⟨k, hrf⟩ := Raft.applier_eq hrun
    rw [hrf] at hlead ⊢
    exact h.next i hlead j
  | restart rf _ _ hrf => rw [hrf, Raft.make_currentRole] at hlead; cases hlead
  | win _ _ hrf => rw [hrf]; exact le_rfl
  | appended q args reply he _ hq _ _ hb hle ht hl hrep =>
    have hans := c.refined.replies q hq
    rw [hb] at hans
    obtain ⟨-, ⟨M, k, p, hsent⟩, -⟩ := hans
    have hold := h.next i hl j
    obtain ⟨d, L, hL, hp, -⟩ := c.histories.sent hsent.sent
    have hlast := c.lastLogIndex_eq hl (ht ▸ hL)
    have hM := hsent.length
    have hlen := hp.length_le
    have hhint := h.hint q hq args reply hb
    generalize (s'.proc i).raft = rf' at hrep ⊢
    cases hrep with
    | advance _ _ =>
      simp only [Raft.lastLogIndex] at hold hlast ⊢
      by_cases hj : j = q.target
      · subst hj
        rw [Function.update_self]
        omega
      · rw [Function.update_of_ne hj]
        exact hold
    | @retreat m hfail hm =>
      obtain ⟨d', L', hL', hhint⟩ := hhint hfail hle
      rw [hL] at hL'
      cases hL'
      have hm' : m ≤ (s.proc i).raft.lastLogIndex + 1 := by
        rw [AppendEntriesReply.hint] at hhint
        rcases hm with ⟨hx, rfl⟩ | ⟨hx, rfl⟩ | hm
        · rw [if_pos hx] at hhint; omega
        · rw [if_neg hx] at hhint; omega
        · exact hm
      simp only [Raft.lastLogIndex] at hold hm' ⊢
      by_cases hj : j = q.target
      · subst hj
        rw [Function.update_self]
        exact hm'
      · rw [Function.update_of_ne hj]
        exact hold
  | snapped q args reply he _ hq _ _ hb hle ht hl hrf =>
    have hans := c.refined.replies q hq
    rw [hb] at hans
    obtain ⟨-, ⟨k, d, L, hsnap⟩, -⟩ := hans
    have hold := h.next i hl j
    have hlast := c.lastLogIndex_eq hl (ht ▸ hsnap.ldr)
    have hle' := hsnap.le
    have hidx := hsnap.index
    rw [hrf]
    simp only [Raft.lastLogIndex] at hold hlast ⊢
    by_cases hj : j = q.target
    · subst hj
      rw [Function.update_self]
      omega
    · rw [Function.update_of_ne hj]
      exact hold

theorem step_applied (i : Fin n) :
    (s'.proc i).raft.lastApplied ≤ (s'.proc i).raft.commitIndex := by
  have hold := h.applied i
  cases (stepped c.step).peer i with
  | continues he _ hc _ =>
    rw [hc.applied]
    exact hold.trans (c.commit_le he)
  | applies he hrun =>
    have hb := c.base_le i
    unfold Raft.applier at hrun
    split at hrun
    · simp only [Option.some.injEq, Prod.mk.injEq] at hrun
      rw [← hrun.1]; exact hb
    split at hrun
    · obtain ⟨es, -, hrun⟩ := Option.bind_eq_some_iff.mp hrun
      simp only [Option.some.injEq, Prod.mk.injEq] at hrun
      rw [← hrun.1]
    · simp only [Option.some.injEq, Prod.mk.injEq] at hrun
      rw [← hrun.1]; exact hold
  | restart rf _ _ hrf => rw [hrf, Raft.make_eq]
  | win _ _ hrf => rw [hrf]; exact hold
  | appended q args reply he _ hq _ _ hb hle ht hl hrep =>
    generalize (s'.proc i).raft = rf' at hrep ⊢
    cases hrep with
    | advance _ hi => exact hold.trans hi
    | retreat _ _ => exact hold
  | snapped q args reply he _ hq _ _ hb hle ht hl hrf => rw [hrf]; exact hold

omit h in
theorem epoch_le (i : Fin n) : (s.proc i).epoch ≤ (s'.proc i).epoch := by
  cases (stepped c.step).peer i with
  | continues he => exact he.ge
  | applies he => exact he.ge
  | restart _ he => omega
  | win he => exact he.ge
  | appended _ _ _ he => exact he.ge
  | snapped _ _ _ he => exact he.ge

theorem step_requestEpoch {q : Envelope n (Rpc C D)} (hq : q ∈ s'.requests) :
    q.epoch ≤ (s'.proc q.source).epoch := by
  have hle := epoch_le c q.source
  rcases (stepped c.step).request q hq with h1 | ⟨h1, -⟩
  · exact (h.requestEpoch q h1).trans hle
  · omega

theorem step_replyEpoch {q : Envelope n (Answer C D)} (hq : q ∈ s'.replies) :
    q.epoch ≤ (s'.proc q.source).epoch := by
  have hle := epoch_le c q.source
  rcases (stepped c.step).reply q hq with h1 | ⟨r, h1, -⟩
  · exact (h.replyEpoch q h1).trans hle
  · exact (h.requestEpoch _ h1).trans hle

theorem step_request {q : Envelope n (Rpc C D)} (hq : q ∈ s'.requests)
    (he : q.epoch = (s'.proc q.source).epoch) {args : InstallSnapshotArgs D}
    (hb : q.body = .snapshot args) :
    args.lastIncludedIndex ≤ (s'.proc q.source).raft.commitIndex := by
  have hle := epoch_le c q.source
  rcases (stepped c.step).request q hq with h1 | ⟨h1, h2⟩
  · have h3 := h.requestEpoch q h1
    exact (h.request q h1 (by omega) args hb).trans (c.commit_le (by omega))
  · have hcom := c.commit_le (i := q.source) (by omega)
    have hbase := c.base_le q.source
    rcases h2 with ⟨e, vargs, h2⟩ | ⟨j, m, h2, h3⟩
    · rw [hb] at h2; cases h2
    · rw [hb] at h2
      cases m with
      | append _ => cases h2
      | snapshot args' =>
        cases h2
        unfold Raft.heartbeatTo at h3
        split at h3
        · cases h3; exact hbase.trans hcom
        · obtain ⟨_, -, h3⟩ := Option.bind_eq_some_iff.mp h3
          obtain ⟨_, -, h3⟩ := Option.bind_eq_some_iff.mp h3
          cases h3

theorem step_reply {q : Envelope n (Answer C D)} (hq : q ∈ s'.replies)
    (he : q.epoch = (s'.proc q.source).epoch) {args : InstallSnapshotArgs D}
    {reply : InstallSnapshotReply} (hb : q.body = .snapshot args reply) :
    args.lastIncludedIndex ≤ (s'.proc q.source).raft.commitIndex := by
  have hle := epoch_le c q.source
  rcases (stepped c.step).reply q hq with h1 | ⟨r, h1, h2⟩
  · have h3 := h.replyEpoch q h1
    exact (h.reply q h1 (by omega) args reply hb).trans (c.commit_le (by omega))
  · have h3 := h.requestEpoch _ h1
    simp only at h3
    have hr := (Raft.serve_snapshot (hb ▸ h2)).1
    have he' : q.epoch = (s.proc q.source).epoch := by omega
    exact (h.request _ h1 he' args hr).trans (c.commit_le (i := q.source) (by omega))

theorem step_hint {q : Envelope n (Answer C D)} (hq : q ∈ s'.replies)
    {args : AppendEntriesArgs C} {reply : AppendEntriesReply} (hb : q.body = .append args reply)
    (hfail : reply.success = false) (hle : reply.term ≤ args.term) :
    ∃ d L, a'.ldr args.term = some (d, L) ∧ reply.hint ≤ (List.length L : ℤ) + 1 := by
  rcases (stepped c.step).reply q hq with h1 | ⟨r, h1, h2⟩
  · obtain ⟨d, L, hL, hhint⟩ := h.hint q h1 args reply hb hfail hle
    obtain ⟨L', hL', hp⟩ := c.grows.ldr hL
    have := hp.length_le
    exact ⟨d, L', hL', by omega⟩
  · obtain ⟨rfl, hrun⟩ := Raft.serve_append (hb ▸ h2)
    obtain ⟨-, M, k, p, hsent⟩ := c.refined.requests _ h1
    obtain ⟨d, L, hL, hp, -⟩ := c.histories.sent hsent.sent
    obtain ⟨L', hL', hp'⟩ := c.grows.ldr hL
    refine ⟨d, L', hL', ?_⟩
    obtain ⟨hterm, hhint⟩ := (c.refined.peer q.target).hint c.histories c.refined.led hrun
      hfail hle
    rcases hhint with hhint | hhint
    · have h3 := hsent.le
      have h4 := hsent.prevLogIndex
      have h5 := hp.length_le
      have h6 := hp'.length_le
      omega
    · -- what the peer has in its snapshot is committed, so the leader has it
      have hr' := c.refined'.peer q.target
      have hcom := c.completeness'.commit q.target
      have hsaved : (a'.node q.target).saved ≤ args.term := by
        have := (Elections.reach trivial c.reach').saved q.target
        rw [hr'.term, hterm] at this
        exact this
      have hpre := c.completeness'.committed_ldr (committed_le hcom.2 hsaved) hL'
      have hlen := hpre.length_le
      rw [List.length_take, min_eq_left hcom.1] at hlen
      have hbase := c.completeness'.base q.target
      rw [hhint, hr'.keeps.index]
      omega

theorem step : Progress s' a' where
  counted _ hl j := h.step_counted c hl j
  next _ hl j := h.step_next c hl j
  applied i := h.step_applied c i
  requestEpoch _ hq := h.step_requestEpoch c hq
  replyEpoch _ hq := h.step_replyEpoch c hq
  request _ hq he _ hb := h.step_request c hq he hb
  reply _ hq he _ _ hb := h.step_reply c hq he hb
  hint _ hq _ _ hb hf hle := h.step_hint c hq hb hf hle

end Progress

/-! ## Runs -/

/-- The induction rule for runs that keep the disciplines. -/
theorem runs_induction {I : Cluster n C D → RaftState n C → Prop}
    (h0 : I Cluster.initial (blankState n C))
    (h1 : ∀ s a x s' a', Progress.Paired s a x s' a' → Progress s a → I s a → I s' a')
    {s : Cluster n C D} (hs : (machine n C D).Reach Disciplined s) :
    ∃ a, Replication.Reach full 0 a ∧ Refined s a ∧ Progress s a ∧ I s a := by
  induction hs with
  | init hi =>
    cases hi
    exact ⟨_, .start blankState_start, .initial blankState_start, .initial, h0⟩
  | @step s s' x _ hok hst ih =>
    obtain ⟨a, hR, h, hp, hI⟩ := ih
    obtain ⟨a', hsteps, h'⟩ := h.step (Δ := full) hR (fun _ => ⟨trivial, trivial⟩)
      (fun _ => hok.1) (fun _ => hok.2.1)
      (fun _ c hc => (hok.2.2 c hc).trans (hp.applied c.1)) (fun _ i hl j _ => hp.counted i hl j)
      (.inl trivial) hst
    have hpair : Progress.Paired s a x s' a' :=
      ⟨h, hR, h', hR.steps hsteps, grows_of_steps hR hsteps, hok, hst⟩
    exact ⟨a', hpair.reach', h', hp.step hpair, h1 _ _ _ _ _ hpair hp hI⟩

/-! ## Bounds -/

namespace Raft

/-- The indices of a peer are in order and inside its log. -/
structure InBounds (rf : Raft n C D) : Prop where
  log : ∃ e rest, rf.log = e :: rest ∧ e.term = rf.lastIncludedTerm
  base_nonneg : 0 ≤ rf.lastIncludedIndex
  term_nonneg : 0 ≤ rf.lastIncludedTerm
  base : rf.lastIncludedIndex ≤ rf.commitIndex
  commit : rf.commitIndex ≤ rf.lastLogIndex
  applied : rf.lastApplied ≤ rf.commitIndex
  next : rf.currentRole = .leader → ∀ j, j ≠ rf.me → rf.nextIndex j ≤ rf.lastLogIndex + 1

/-- No function of the peer uses an index or a slice bound outside its log. -/
structure Total (rf : Raft n C D) : Prop where
  requestVote : ∀ args, rf.requestVote args ≠ none
  appendEntries : ∀ args, rf.appendEntries args ≠ none
  installSnapshot : ∀ args, rf.installSnapshot args ≠ none
  doSnapshot : ∀ index data, rf.doSnapshot index data ≠ none
  startElection : rf.currentRole ≠ .leader → rf.startElection ≠ none
  heartbeat : rf.currentRole = .leader → rf.heartbeat ≠ none
  appendReply : ∀ target args reply, rf.appendReply target args reply ≠ none
  applier : rf.applier ≠ none

variable {rf : Raft n C D}

theorem mapM_isSome {α β : Type} {f : α → Option β} {l : List α}
    (h : ∀ x ∈ l, ∃ y, f x = some y) : ∃ ys, l.mapM f = some ys := by
  induction l with
  | nil => exact ⟨[], rfl⟩
  | cons x l ih =>
    obtain ⟨y, hy⟩ := h x (by simp)
    obtain ⟨ys, hys⟩ := ih fun z hz => h z (List.mem_cons_of_mem _ hz)
    exact ⟨y :: ys, by simp [List.mapM_cons, hy, hys]⟩

namespace InBounds

variable (h : rf.InBounds)
include h

theorem holdsCommitted : rf.HoldsCommitted := ⟨h.base, h.commit⟩

theorem heartbeat (hr : rf.currentRole = .leader) : rf.heartbeat ≠ none := by
  rw [Raft.heartbeat, if_neg (by simp [hr])]
  obtain ⟨ys, hys⟩ := mapM_isSome (l := (List.finRange n).filter (· ≠ rf.me))
    (f := fun i => (rf.heartbeatTo i).map (i, ·)) fun i hi => by
      have hne : i ≠ rf.me := by simpa using hi
      have hnext := h.next hr i hne
      suffices ∃ m, rf.heartbeatTo i = some m by
        obtain ⟨m, hm⟩ := this
        exact ⟨(i, m), by rw [hm]; rfl⟩
      unfold heartbeatTo
      split
      · exact ⟨_, rfl⟩
      · obtain ⟨e, he⟩ := rf.entry_isSome (i := rf.nextIndex i - 1) (by omega) (by omega)
        obtain ⟨es, hes⟩ := rf.entriesFrom_isSome (i := rf.nextIndex i) (by omega) (by omega)
        rw [he, hes]
        exact ⟨_, rfl⟩
  rw [hys]
  simp

/-- Indices in bounds suffice. -/
theorem total : rf.Total :=
  ⟨h.holdsCommitted.requestVote, appendEntries_ne_none, installSnapshot_ne_none, doSnapshot_ne_none,
    h.holdsCommitted.electionIn (rf.currentTerm + 1), h.heartbeat, h.holdsCommitted.appendReply,
    h.holdsCommitted.applier⟩

end InBounds

end Raft

/-- **No index outside the log.** -/
theorem log_in_bounds {s : Cluster n C D} (hs : (machine n C D).Reach Disciplined s) (i : Fin n) :
    (s.proc i).raft.InBounds ∧ (s.proc i).raft.Total := by
  obtain ⟨a, hR, hr, hp, -⟩ := runs_induction (I := fun _ _ => True) trivial
    (fun _ _ _ _ _ _ _ _ => trivial) hs
  have hc : Completeness a := .reach trivial trivial trivial hR
  have hpeer := hr.peer i
  have hk := hpeer.keeps
  have hb : (s.proc i).raft.InBounds := by
    have hsound : Sound a ((a.node i).hist.take (a.node i).base) :=
      ((Histories.reach hR).hist i).of_isPrefix (List.take_prefix ..)
    refine ⟨⟨_, _, hk.log, hk.term.symm⟩, ?_, ?_, ?_, ?_, hp.applied i, fun hl j _ => hp.next i hl j⟩
    · rw [hk.index]
      exact Int.natCast_nonneg _
    · rw [hk.term]
      exact lastTerm_nonneg fun e he => pos_of_sound hr.led hsound he
    · have := hc.base i
      rw [hk.index, hpeer.commit]
      omega
    · have := (hc.commit i).1
      rw [hk.lastLogIndex, hpeer.commit]
      omega
  exact ⟨hb, hb.total⟩

theorem log_in_bounds_trimmed : ∃ s : Cluster 3 ℕ Unit,
    (s.proc 0).raft.lastIncludedIndex = 1 ∧ (s.proc 0).raft.commitIndex = 2 ∧
      (s.proc 0).raft.InBounds ∧ (s.proc 0).raft.Total := by
  obtain ⟨s, hs, hv⟩ := (machine 3 ℕ Unit).reach_of_run Disciplined
    (f := fun s => ((s.proc 0).raft.lastIncludedIndex, (s.proc 0).raft.commitIndex))
    (v := (1, 2)) trimmingRun rfl rfl
  simp only [Prod.mk.injEq] at hv
  exact ⟨s, hv.1, hv.2, log_in_bounds hs 0⟩

/-- Peer 1 learns that its entry is committed, and then handles a heartbeat that was sent before
the entry existed. -/
def shortenedRun : List (Action 3 ℕ Unit) :=
  [.timeout 0, .handle 0, .deliver 0, .heartbeat 0, .start 0 (some 7), .heartbeat 0, .handle 3,
    .deliver 0, .heartbeat 0, .handle 4, .handle 1]

theorem log_out_of_bounds : ¬ ∀ s : Cluster 3 ℕ Unit, (machine 3 ℕ Unit).Reachable s →
    ∀ i, (s.proc i).raft.InBounds ∧ (s.proc i).raft.Total := by
  intro h
  obtain ⟨s, hs, hv⟩ := (machine 3 ℕ Unit).reach_of_run (fun _ _ => True)
    (f := fun s => ((s.proc 1).raft.lastLogIndex, (s.proc 1).raft.commitIndex))
    (v := (0, 1)) shortenedRun rfl rfl
  simp only [Prod.mk.injEq] at hv
  have := (h s hs 1).1.commit
  omega

end CollabIde
