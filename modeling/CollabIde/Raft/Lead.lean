import CollabIde.Raft.Committed
import CollabIde.Raft.Serve

/-!
# Elections, and what a leader does, refined

An election start, the three reply handlers and a heartbeat round, matched by steps of the node.
The commit loop of a leader finds an index that a majority has stored (`learn_advance`), if what
the leader counts in `matchIndex` was stored or is no news to it (`Counted`).
-/

namespace CollabIde

open Replication State

variable {n : ℕ} {C D : Type}

/-- What `mapM` returns comes from the list. -/
theorem mem_of_mapM {α β : Type} {f : α → Option β} {l : List α} {ys : List β}
    (h : l.mapM f = some ys) {y : β} (hy : y ∈ ys) : ∃ x ∈ l, f x = some y := by
  induction l generalizing ys with
  | nil => simp only [List.mapM_nil, Option.pure_def, Option.some.injEq] at h; simp [← h] at hy
  | cons x l ih =>
    simp only [List.mapM_cons, Option.pure_def, Option.bind_eq_bind] at h
    obtain ⟨z, hz, h⟩ := Option.bind_eq_some_iff.mp h
    obtain ⟨zs, hzs, h⟩ := Option.bind_eq_some_iff.mp h
    rw [Option.some.injEq] at h
    rw [← h] at hy
    rcases List.mem_cons.mp hy with rfl | hy
    · exact ⟨x, by simp, hz⟩
    · obtain ⟨w, hw, hfw⟩ := ih hzs hy
      exact ⟨w, List.mem_cons_of_mem _ hw, hfw⟩

namespace Refines

variable {Δ : Discipline} {a : RaftState n C} {v c : Fin n} {rf rf' : Raft n C D}
  {x : Node (Fin n) ℤ (LogEntry C)} {h M L : List (LogEntry C)} {k p : ℕ}

/-- The indices of a leader and of the applier are not part of the node. -/
theorem volatile {next match' : Fin n → ℤ} {applied : ℤ} (hr : Refines v rf x) :
    Refines v { rf with nextIndex := next, matchIndex := match', lastApplied := applied } x :=
  { hr with keeps := ⟨hr.keeps.log, hr.keeps.index, hr.keeps.term, hr.keeps.le⟩ }

/-! ## Elections -/

theorem startElection {args : RequestVoteArgs} (hr : Refines v rf (a.node v))
    (hrun : rf.startElection = some (rf', args)) :
    ∃ a', Local Δ v a a' ∧ Refines v rf' (a'.node v) ∧ 0 ≤ args.term ∧
      Stood a' args v (a.node v).hist ∧ a'.voted v args.term v := by
  unfold Raft.startElection Raft.electionIn at hrun
  split at hrun
  · cases hrun
  have hstep : Step Δ a (a.campaign v (rf.currentTerm + 1)) :=
    .campaign v _ (by rw [hr.term]; omega)
  have h0 : 0 ≤ rf.currentTerm := hr.term ▸ hr.term_nonneg
  have hr' : Refines v { rf with
      currentRole := .candidate, currentTerm := rf.currentTerm + 1, votedFor := rf.me }.persist
      ((a.campaign v (rf.currentTerm + 1)).node v) := by
    simp only [State.campaign, set_node_self]
    exact {
      me := hr.me
      term := rfl
      vote := by rw [← hr.me]; rfl
      role := rfl
      commit := hr.commit
      keeps := ⟨hr.keeps.log, hr.keeps.index, hr.keeps.term, hr.keeps.le⟩
      saved := rfl
      saved_nonneg := by simp only; omega
      term_nonneg := by simp only; omega
      busy := fun _ => by simp only; omega }
  have hx : ((a.campaign v (rf.currentTerm + 1)).node v).hist = (a.node v).hist := by
    simp [State.campaign]
  obtain ⟨e, he, het⟩ := hr'.last
  have hlast := hr'.lastLogIndex
  rw [hx] at het hlast
  obtain ⟨e', he', hrun⟩ := Option.bind_eq_some_iff.mp hrun
  rw [he, Option.some.injEq] at he'
  subst he'
  simp only [Option.some.injEq, Prod.mk.injEq] at hrun
  obtain ⟨rfl, rfl⟩ := hrun
  refine ⟨_, .of_step hstep (fun w hw => by simp [State.campaign, hw]) (fun _ => rfl), hr', ?_,
    ⟨.inr ⟨rfl, rfl, rfl⟩, ?_, hlast, het⟩, .inr ⟨rfl, rfl, rfl⟩⟩
  · simp only [Raft.persist_currentTerm]; omega
  · simp only [Raft.persist_me, hr.me]

theorem becomeLeader (hr : Refines v rf (a.node v)) (ht : 0 < rf.currentTerm) :
    Refines v rf.becomeLeader ((a.win v).node v) := by
  simp only [State.win, setAck_node, setLdr_node, set_node_self]
  exact { hr with
    role := rfl
    keeps := ⟨hr.keeps.log, hr.keeps.index, hr.keeps.term, hr.keeps.le⟩
    busy := fun _ => hr.term ▸ ht }

/-! ## Replies -/

theorem stepDown_local {t : ℤ} (hr : Refines v rf (a.node v)) (h0 : 0 ≤ t)
    (ht : Δ.terms → rf.Fresh t) :
    Local Δ v a (a.reset v t) ∧ Refines v (rf.stepDown t) ((a.reset v t).node v) := by
  have hreset : Δ.terms → (a.node v).Renews t :=
    fun h => (ht h).imp (hr.term ▸ ·) fun ⟨he, hv⟩ =>
      ⟨hr.term ▸ he, voteId_eq_neg.mp (hr.vote.symm.trans hv)⟩
  refine ⟨.of_set (.reset v t hreset), ?_⟩
  rw [State.reset, set_node_self]
  exact hr.stepDown h0

/-- What the leader counts for a peer was stored by it, or is no news. -/
def Counted (a : RaftState n C) (v : Fin n) (rf : Raft n C D) : Prop :=
  ∀ j, j ≠ v → rf.matchIndex j ≤ a.ack j rf.currentTerm ∨ rf.matchIndex j ≤ rf.commitIndex

/-- An index that the commit loop finds ends a committed history. -/
theorem committed_of_replicated {i : ℕ} {e : LogEntry C} (hr : Refines v rf (a.node v))
    (hh : Histories a) (he : Elections a) (ha : Acks a) (hrole : rf.currentRole = .leader)
    (hcount : Counted a v rf) (hi : rf.commitIndex < i) (hent : rf.entry i = some e)
    (het : e.term = rf.currentTerm) (hrep : n / 2 + 1 ≤ rf.replicated i) (hb : (a.node v).base ≤ i)
    (hlen : i ≤ (a.node v).hist.length) :
    a.Committed ((a.node v).hist.take i) (a.node v).saved := by
  have hrole' : (a.node v).role = .leader := hr.role.trans hrole
  have hL := hh.leader hrole'
  have hci := hr.commit
  obtain ⟨j, rfl⟩ : ∃ j, i = j + 1 := ⟨i - 1, by omega⟩
  have hj : j < (a.node v).hist.length := hlen
  obtain ⟨e', he', ht', -⟩ := hr.keeps.entry hb hlen
  rw [hent, Option.some.injEq] at he'
  subst he'
  rw [take_succ_eq hj, lastTerm_append_singleton] at ht'
  have hmark : a.Mark (a.node v).term ((a.node v).hist.take (j + 1)) :=
    ⟨v, _, _, _, hL, List.take_prefix _ _, take_succ_eq hj, by
      rw [termOf_logEntry, ← ht', het, hr.term]⟩
  refine .inr ⟨(a.node v).term, _, ?_, hmark, ?_, List.prefix_refl _⟩
  · rw [he.busy (by rw [hrole']; exact Role.noConfusion)]
  · -- the leader and the peers that it counted
    refine ⟨insert v (Finset.univ.filter fun w => w ≠ v ∧ ((j + 1 : ℕ) : ℤ) ≤ rf.matchIndex w), ?_,
      fun w hw => ?_⟩
    · unfold IsMajority
      rw [Finset.card_insert_of_notMem (by simp), Fintype.card_fin]
      unfold Raft.replicated at hrep
      rw [hr.me] at hrep
      omega
    · have hlen' : ((a.node v).hist.take (j + 1)).length = j + 1 := by
        rw [List.length_take]; omega
      rw [hlen']
      rcases Finset.mem_insert.mp hw with rfl | hw
      · rw [ha.leader hrole']; exact hlen
      · obtain ⟨hwv, hm⟩ := (Finset.mem_filter.mp hw).2
        rw [hr.term]
        rcases hcount w hwv with h1 | h1 <;> omega

/-- A successful append: the leader learns what the commit loop finds. -/
theorem advance {args : AppendEntriesArgs C} {target : Fin n} (hr : Refines v rf (a.node v))
    (hR : Replication.Reach Δ 0 a) (hD : Δ.commits → Δ.terms ∧ Δ.acks)
    (hrole : rf.currentRole = .leader) (ht : rf.currentTerm = args.term)
    (hcount : Δ.commits → Counted a v { rf with
      matchIndex :=
        Function.update rf.matchIndex target (args.prevLogIndex + args.entries.length) })
    (hrun : rf.advance target args = some rf') :
    ∃ a', Local Δ v a a' ∧ Refines v rf' (a'.node v) := by
  obtain ⟨rf₁, hrf₁⟩ : ∃ r, r = { rf with
    nextIndex := Function.update rf.nextIndex target
      (args.prevLogIndex + args.entries.length + 1)
    matchIndex := Function.update rf.matchIndex target
      (args.prevLogIndex + args.entries.length) } := ⟨_, rfl⟩
  have hr₁ : Refines v rf₁ (a.node v) := hrf₁ ▸ hr.volatile
  have hc₁ : Δ.commits → Counted a v rf₁ := fun h => hrf₁ ▸ hcount h
  have hrole₁ : rf₁.currentRole = .leader := by rw [hrf₁]; exact hrole
  have ht₁ : rf₁.currentTerm = args.term := by rw [hrf₁]; exact ht
  rw [Raft.advance, ← hrf₁] at hrun
  obtain ⟨i, hi, hrun⟩ := Option.bind_eq_some_iff.mp hrun
  rw [Option.some.injEq] at hrun
  subst hrun
  rcases Raft.newCommitIndex_spec hi with rfl | ⟨hlt, ⟨e, he, het⟩, hrep⟩
  · exact ⟨a, .refl a, hr₁⟩
  · obtain ⟨hle, hle'⟩ := hr₁.keeps.le_of_entry he
    obtain ⟨j, rfl, hb, hj⟩ := hr₁.keeps.nat_of_le hle hle'
    have hh : Histories a := .reach hR
    have hstep : Step Δ a (a.learn v j) := .learn v j fun hC => by
      obtain ⟨hT, hA⟩ := hD hC
      exact ⟨hb, hj, hr₁.committed_of_replicated hh (.reach hT hR) (.reach hT hA hR) hrole₁
        (hc₁ hC) hlt he (het.trans ht₁.symm) hrep hb hj⟩
    refine ⟨a.learn v j, .of_set hstep, ?_⟩
    rw [State.learn, set_node_self]
    exact { hr₁ with
      commit := rfl, keeps := ⟨hr₁.keeps.log, hr₁.keeps.index, hr₁.keeps.term, hr₁.keeps.le⟩ }

theorem retreat {target : Fin n} {reply : AppendEntriesReply} (hr : Refines v rf x)
    (hrun : rf.retreat target reply = some rf') : Refines v rf' x := by
  unfold Raft.retreat at hrun
  split at hrun
  · rw [Option.some.injEq] at hrun
    subst hrun
    exact hr.volatile
  · obtain ⟨i, -, hrun⟩ := Option.bind_eq_some_iff.mp hrun
    rw [Option.some.injEq] at hrun
    subst hrun
    exact hr.volatile

theorem appendReply {target : Fin n} {args : AppendEntriesArgs C} {reply : AppendEntriesReply}
    (hr : Refines v rf (a.node v)) (hR : Replication.Reach Δ 0 a)
    (hD : Δ.commits → Δ.terms ∧ Δ.acks) (h0 : 0 ≤ args.term)
    (hfresh : Δ.terms → args.term < reply.term → rf.Fresh reply.term)
    (hcount : Δ.commits → rf.currentRole = .leader → rf.currentTerm = args.term →
      reply.success = true → Counted a v { rf with
        matchIndex :=
          Function.update rf.matchIndex target (args.prevLogIndex + args.entries.length) })
    (hrun : rf.appendReply target args reply = some rf') :
    ∃ a', Local Δ v a a' ∧ Refines v rf' (a'.node v) := by
  unfold Raft.appendReply at hrun
  split at hrun
  · rename_i hlt
    rw [Option.some.injEq] at hrun
    subst hrun
    exact ⟨_, hr.stepDown_local (h0.trans hlt.le) fun hT => hfresh hT hlt⟩
  split at hrun
  · rw [Option.some.injEq] at hrun
    subst hrun
    exact ⟨a, .refl a, hr⟩
  rename_i hlead
  rw [not_or, not_not, ne_eq, not_not] at hlead
  split at hrun
  · rename_i hs
    exact hr.advance hR hD hlead.2 hlead.1 (fun hC => hcount hC hlead.2 hlead.1 hs) hrun
  · exact ⟨a, .refl a, hr.retreat hrun⟩

theorem snapshotReply {target : Fin n} {args : InstallSnapshotArgs D}
    {reply : InstallSnapshotReply} (hr : Refines v rf (a.node v)) (h0 : 0 ≤ args.term)
    (hfresh : Δ.terms → args.term < reply.term → rf.Fresh reply.term) :
    ∃ a', Local Δ v a a' ∧ Refines v (rf.snapshotReply target args reply) (a'.node v) := by
  unfold Raft.snapshotReply
  split
  · rename_i hlt
    exact ⟨_, hr.stepDown_local (h0.trans hlt.le) fun hT => hfresh hT hlt⟩
  split
  · exact ⟨a, .refl a, hr⟩
  · exact ⟨a, .refl a, hr.volatile⟩

/-! ## Heartbeats -/

/-- The leader records what it sends. -/
theorem announce (hr : Refines v rf (a.node v)) (hrole : rf.currentRole = .leader) :
    Local Δ v a ((a.send v).sendSnap v) := by
  have hrole' : (a.node v).role = .leader := hr.role.trans hrole
  exact (Local.of_step (.send v hrole') (fun _ _ => rfl) fun _ => rfl).trans
    (.of_step (.sendSnap v hrole') (fun _ _ => rfl) fun _ => rfl)

theorem heartbeatTo {i : Fin n} {m : Raft.Heartbeat C D} (hr : Refines v rf (a.node v))
    (hh : Histories a) (hrole : rf.currentRole = .leader) (hrun : rf.heartbeatTo i = some m) :
    RpcOk ((a.send v).sendSnap v) v m.rpc := by
  have hL := hh.leader (hr.role.trans hrole)
  have h0 : 0 ≤ rf.currentTerm := hr.term ▸ hr.term_nonneg
  unfold Raft.heartbeatTo at hrun
  split at hrun
  · rw [Option.some.injEq] at hrun
    subst hrun
    exact ⟨h0, (a.node v).base, v, (a.node v).hist, .inr ⟨hr.term.symm, rfl⟩,
      by rw [← hr.term]; exact hL, hr.keeps.le, hr.keeps.index, hr.keeps.term⟩
  · obtain ⟨e, he, hrun⟩ := Option.bind_eq_some_iff.mp hrun
    obtain ⟨es, hes, hrun⟩ := Option.bind_eq_some_iff.mp hrun
    rw [Option.some.injEq] at hrun
    subst hrun
    obtain ⟨hle, hle'⟩ := hr.keeps.le_of_entry he
    obtain ⟨p, hp, hb, hlen⟩ := hr.keeps.nat_of_le hle hle'
    obtain ⟨e', he', het, -⟩ := hr.keeps.entry hb hlen
    rw [hp, he', Option.some.injEq] at he
    subst he
    rw [show rf.nextIndex i = p + 1 by omega, hr.keeps.entriesFrom hb hlen,
      Option.some.injEq] at hes
    exact ⟨h0, (a.node v).hist, (a.node v).commit, p, .inr ⟨hr.term.symm, rfl, rfl⟩, hp, hlen,
      het, hes.symm, hr.commit⟩

theorem heartbeat {ms : List (Fin n × Raft.Heartbeat C D)} (hr : Refines v rf (a.node v))
    (hh : Histories a) (hrun : rf.heartbeat = some ms) :
    Local Δ v a ((a.send v).sendSnap v) ∧
      ∀ m ∈ ms, RpcOk ((a.send v).sendSnap v) v m.2.rpc := by
  unfold Raft.heartbeat at hrun
  split at hrun
  · cases hrun
  rename_i hrole
  rw [ne_eq, not_not] at hrole
  refine ⟨hr.announce hrole, fun m hm => ?_⟩
  obtain ⟨i, -, hi⟩ := mem_of_mapM hrun hm
  obtain ⟨b, hb, rfl⟩ := Option.map_eq_some_iff.mp hi
  exact hr.heartbeatTo hh hrole hb

end Refines

end CollabIde
