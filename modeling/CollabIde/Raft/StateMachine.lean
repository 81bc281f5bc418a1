import CollabIde.Raft.Bounds

/-!
# State machine safety

In a run of the discipline, no two commands that peers send on their `applyChan`s for one index
differ (`state_machine_safety`): what an applier round takes from the log is committed
(`Refines.applier_command`), and committed histories are prefixes of one another. Without the
discipline an append can drop an entry that its leader has counted, committed and sent
(`state_machine_safety_fails`). The leader of the latest term that has been won has all that has
ever been sent (`leader_has_sent`).
-/

namespace CollabIde

open Replication State Cluster
open Raft (Outgoing)

variable {n : ℕ} {C D : Type}

/-- The command at the index is part of a committed history. -/
def CommittedAt (a : RaftState n C) (i : ℤ) (c : Option C) : Prop :=
  ∃ p e t, a.Committed (p ++ [e]) t ∧ i = List.length p + 1 ∧ e.command = c

namespace CommittedAt

variable {a a' : RaftState n C} {i : ℤ} {c c' : Option C}

theorem mono (hg : Grows a a') (h : CommittedAt a i c) : CommittedAt a' i c := by
  obtain ⟨p, e, t, hp, hi, he⟩ := h
  exact ⟨p, e, t, committed_mono hg hp, hi, he⟩

theorem unique (hc : Completeness a) (h : CommittedAt a i c) (h' : CommittedAt a i c') :
    c = c' := by
  obtain ⟨p, e, t, hp, rfl, rfl⟩ := h
  obtain ⟨p', e', t', hp', hlen, rfl⟩ := h'
  have heq : p ++ [e] = p' ++ [e'] := by
    have hlen' : (p ++ [e]).length = (p' ++ [e']).length := by
      simp only [List.length_append, List.length_singleton]; omega
    rcases hc.committed_comparable hp hp' with h1 | h1
    · exact h1.eq_of_length hlen'
    · exact (h1.eq_of_length hlen'.symm).symm
  rw [(List.append_inj_right' heq rfl |> List.singleton_inj.mp : e = e')]

end CommittedAt

/-- What an applier round takes from the log are entries of the history up to the commit index. -/
theorem Refines.applier_command {v : Fin n} {rf rf' : Raft n C D} {x : Node (Fin n) ℤ (LogEntry C)}
    {out : List (Outgoing C)} {i : ℤ} {c : Option C} (h : Refines v rf x)
    (hrun : rf.applier = some (rf', out)) (ho : .command c i ∈ out) :
    ∃ k e, k < x.commit ∧ x.hist[k]? = some e ∧ i = k + 1 ∧ e.command = c := by
  unfold Raft.applier at hrun
  split at hrun
  · cases hrun
    cases List.mem_singleton.mp ho
  rename_i hlii
  split at hrun
  · obtain ⟨es, hes, hrun⟩ := Option.bind_eq_some_iff.mp hrun
    cases hrun
    obtain ⟨j, hj, ho⟩ := List.mem_mapIdx.mp ho
    cases ho
    obtain ⟨h1, h2, h3⟩ := slice_getElem? hes (List.getElem?_eq_getElem hj)
    have hbase := h.keeps.index
    rw [h.keeps.logIndex] at h1 h2 h3
    rw [h.keeps.logIndex, h.commit] at h2
    obtain ⟨k, hk⟩ : ∃ k : ℕ, rf.lastApplied = k := ⟨rf.lastApplied.toNat, by omega⟩
    refine ⟨k + j, es[j], by omega, ?_, by rw [hk]; push_cast; ring, rfl⟩
    rw [h.keeps.log, show (rf.lastApplied + 1 - (x.base : ℤ)).toNat + j = k - x.base + j + 1 by
      omega, trimmed, List.getElem?_cons_succ, List.getElem?_drop] at h3
    rw [← h3]
    congr 1
    omega
  · cases hrun
    cases ho

/-- What has been sent, and what appliers have still to send, is committed. -/
structure Applying (s : Cluster n C D) (a : RaftState n C) : Prop where
  outgoing : ∀ i c k, Outgoing.command c k ∈ (s.proc i).applying → CommittedAt a k c
  sent : ∀ m ∈ s.sent, m.2.commandValid = true → CommittedAt a m.2.commandIndex m.2.command

theorem Applying.initial {a : RaftState n C} : Applying (Cluster.initial : Cluster n C D) a where
  outgoing i c k h := by cases h
  sent m h := by cases h

theorem Applying.step {s s' : Cluster n C D} {a a' : RaftState n C} {x : Action n C D}
    (h : Applying s a) (hp : Progress.Paired s a x s' a') : Applying s' a' where
  outgoing i c k ho := by
    cases (stepped hp.step).peer i with
    | continues _ hsub _ _ => exact (h.outgoing i c k (hsub ho)).mono hp.grows
    | applies _ hrun =>
      obtain ⟨j, e, hj, he, rfl, rfl⟩ := (hp.refined.peer i).applier_command hrun ho
      have hcom := (hp.completeness.commit i).2
      refine CommittedAt.mono hp.grows
        ⟨(a.node i).hist.take j, e, _, committed_isPrefix hcom ?_, ?_, rfl⟩
      · obtain ⟨hlt, rfl⟩ := List.getElem?_eq_some_iff.mp he
        rw [← take_succ_eq hlt]
        exact List.take_prefix_take_left hj
      · rw [List.length_take, min_eq_left (List.getElem?_eq_some_iff.mp he).1.le]
    | restart _ _ happ _ => rw [happ] at ho; cases ho
    | win _ happ _ => exact (h.outgoing i c k (happ ▸ ho)).mono hp.grows
    | appended _ _ _ _ happ => exact (h.outgoing i c k (happ ▸ ho)).mono hp.grows
    | snapped _ _ _ _ happ => exact (h.outgoing i c k (happ ▸ ho)).mono hp.grows
  sent m hm hv := by
    rcases (stepped hp.step).sent m hm with h1 | ⟨o, ho, hmo⟩
    · exact (h.sent m h1 hv).mono hp.grows
    · rw [hmo] at hv ⊢
      cases o with
      | snapshot => cases hv
      | command c k => exact (h.outgoing m.1 c k ho).mono hp.grows

/-- All commands sent for one index are equal. -/
def OneCommand (s : Cluster n C D) : Prop :=
  ∀ m ∈ s.sent, ∀ m' ∈ s.sent, m.2.commandValid = true → m'.2.commandValid = true →
    m.2.commandIndex = m'.2.commandIndex → m.2.command = m'.2.command

/-- **State machine safety.** -/
theorem state_machine_safety {s : Cluster n C D} (hs : (machine n C D).Reach Disciplined s) :
    OneCommand s := by
  obtain ⟨a, hR, -, -, happ⟩ := runs_induction (I := Applying) .initial
    (fun _ _ _ _ _ hp _ h => h.step hp) hs
  intro m hm m' hm' hv hv' hi
  exact (happ.sent m hm hv).unique (.reach trivial trivial trivial hR)
    (hi ▸ happ.sent m' hm' hv')

theorem state_machine_safety_applies : ∃ s : Cluster 3 ℕ Unit,
    s.sent.map (fun m => (m.1, m.2.commandIndex, m.2.command)) = [(0, 1, some 7), (1, 1, some 7)] ∧
      OneCommand s := by
  obtain ⟨s, hs, hv⟩ := (machine 3 ℕ Unit).reach_of_run Disciplined
    (f := fun s => s.sent.map fun m => (m.1, m.2.commandIndex, m.2.command))
    (v := [(0, 1, some 7), (1, 1, some 7)])
    [.timeout 0, .handle 0, .deliver 0, .start 0 (some 7), .heartbeat 0, .handle 1, .deliver 0,
      .apply 0, .send 0, .heartbeat 0, .handle 2, .apply 1, .send 1]
    rfl rfl
  exact ⟨s, hv, state_machine_safety hs⟩

/-- Peer 0 counts the entry `7` for peer 1, commits and sends it. Then peer 1 handles an older
heartbeat, loses the entry, and helps peer 2 to win the next term and to commit `8` in its place. -/
def droppedRun : List (Action 3 ℕ Unit) :=
  [.timeout 0, .handle 0, .deliver 0, .heartbeat 0, .start 0 (some 7), .heartbeat 0, .handle 3,
    .deliver 0, .apply 0, .send 0, .handle 1, .timeout 2, .timeout 2, .handle 6, .deliver 1,
    .start 2 (some 8), .heartbeat 2, .handle 7, .deliver 1, .apply 2, .send 2]

theorem state_machine_safety_fails : ¬ ∀ s : Cluster 3 ℕ Unit,
    (machine 3 ℕ Unit).Reach SnapshotApplied s → OneCommand s := by
  intro h
  obtain ⟨s, hs, hv⟩ := (machine 3 ℕ Unit).reach_of_run SnapshotApplied
    (f := fun s => s.sent.map fun m => (m.2.commandValid, m.2.commandIndex, m.2.command))
    (v := [(true, 1, some 7), (true, 1, some 8)]) droppedRun rfl rfl
  obtain ⟨m, hm, h7⟩ := List.mem_map.mp (hv ▸ List.mem_cons_self :
    (true, 1, some 7) ∈ s.sent.map fun m => (m.2.commandValid, m.2.commandIndex, m.2.command))
  obtain ⟨m', hm', h8⟩ := List.mem_map.mp (hv ▸ List.mem_cons_of_mem _ List.mem_cons_self :
    (true, 1, some 8) ∈ s.sent.map fun m => (m.2.commandValid, m.2.commandIndex, m.2.command))
  simp only [Prod.mk.injEq] at h7 h8
  have := h s hs m hm m' hm' h7.1 h8.1 (h7.2.1.trans h8.2.1.symm)
  rw [h7.2.2, h8.2.2] at this
  cases this

/-- What is committed is in the log of the leader of the latest term. -/
theorem CommittedAt.entry {s : Cluster n C D} {a : RaftState n C} {l : Fin n} {i : ℤ} {c : Option C}
    (h : CommittedAt a i c) (hr : Refined s a) (hh : Histories a) (hc : Completeness a)
    (hl : (s.proc l).raft.currentRole = .leader)
    (hlatest : ∀ w ∈ s.wins, w.2 ≤ (s.proc l).raft.currentTerm) :
    i ≤ (s.proc l).raft.lastLogIndex ∧ ((s.proc l).raft.lastIncludedIndex < i →
      ((s.proc l).raft.entry i).map LogEntry.command = some c) := by
  obtain ⟨p, e, t, hp, rfl, rfl⟩ := h
  have hpeer := hr.peer l
  have hldr := hh.leader (hpeer.role.trans hl)
  rw [hpeer.term] at hldr
  -- the term in which the entry was chosen has been won, so it is not later than the leader's
  have hpre : p ++ [e] <+: (a.node l).hist := by
    obtain hnil | ⟨u, q, -, hmark, hchosen, hpq⟩ := hp
    · exact absurd hnil (List.append_ne_nil_of_right_ne_nil p (List.cons_ne_nil e []))
    have hu : u ∈ s.wins.map Prod.snd := by
      obtain ⟨d, L, -, -, hL, -⟩ := hmark
      rw [hr.wins, hL]
      rfl
    obtain ⟨w, hw, rfl⟩ := List.mem_map.mp hu
    exact hc.committed_ldr (.inr ⟨w.2, q, hlatest w hw, hmark, hchosen, hpq⟩) hldr
  have hlen := hpre.length_le
  rw [List.length_append, List.length_singleton] at hlen
  refine ⟨by rw [hpeer.lastLogIndex]; exact_mod_cast hlen, fun hi => ?_⟩
  rw [hpeer.keeps.index] at hi
  have hentry := hpeer.keeps.entry_eq (i := p.length + 1) (by omega) hlen
  obtain ⟨r, hr⟩ := hpre
  rw [← hr, Nat.add_sub_cancel, List.append_assoc, List.getElem?_append_right le_rfl,
    Nat.sub_self, List.singleton_append, List.getElem?_cons_zero] at hentry
  push_cast at hentry
  rw [hentry, Option.map_some]

/-- **Leader completeness**: the leader of the latest term has every command that any peer has ever
sent on its `applyChan`, or has taken a snapshot behind it. -/
theorem leader_has_sent {s : Cluster n C D} (hs : (machine n C D).Reach Disciplined s) {l : Fin n}
    (hl : (s.proc l).raft.currentRole = .leader)
    (hlatest : ∀ w ∈ s.wins, w.2 ≤ (s.proc l).raft.currentTerm) {m : Fin n × ApplyMsg C D}
    (hm : m ∈ s.sent) (hv : m.2.commandValid = true) :
    m.2.commandIndex ≤ (s.proc l).raft.lastLogIndex ∧
      ((s.proc l).raft.lastIncludedIndex < m.2.commandIndex →
        ((s.proc l).raft.entry m.2.commandIndex).map LogEntry.command = some m.2.command) := by
  obtain ⟨a, hR, hr, -, happ⟩ := runs_induction (I := Applying) .initial
    (fun _ _ _ _ _ hp _ h => h.step hp) hs
  exact (happ.sent m hm hv).entry hr (.reach hR) (.reach trivial trivial trivial hR) hl hlatest

/-- Peer 0 commits and sends `7`, and crashes; peer 1, which has the entry, wins the next term. -/
theorem leader_has_sent_later : ∃ s : Cluster 3 ℕ Unit,
    s.wins = [(0, 1), (1, 2)] ∧ ((s.proc 1).raft.entry 1).map LogEntry.command = some (some 7) := by
  obtain ⟨s, hs, hv⟩ := (machine 3 ℕ Unit).reach_of_run Disciplined
    (f := fun s => (s.wins, s.sent.map fun m => (m.1, m.2.commandValid, m.2.commandIndex,
      m.2.command), (s.proc 1).raft.currentRole, (s.proc 1).raft.currentTerm,
      (s.proc 1).raft.lastIncludedIndex))
    (v := ([(0, 1), (1, 2)], [(0, true, 1, some 7)], .leader, 2, 0))
    [.timeout 0, .handle 0, .deliver 0, .start 0 (some 7), .heartbeat 0, .handle 1, .deliver 0,
      .apply 0, .send 0, .restart 0, .timeout 1, .handle 2, .deliver 0] rfl rfl
  simp only [Prod.mk.injEq] at hv
  obtain ⟨hwins, hsent, hl, ht, hb⟩ := hv
  obtain ⟨m, hm, hm7⟩ := List.mem_map.mp (hsent ▸ List.mem_cons_self :
    (0, true, 1, some 7) ∈ s.sent.map fun m => (m.1, m.2.commandValid, m.2.commandIndex,
      m.2.command))
  simp only [Prod.mk.injEq] at hm7
  obtain ⟨-, hvalid, hindex, hcommand⟩ := hm7
  have h := leader_has_sent hs hl (by rw [hwins, ht]; decide) hm hvalid
  rw [hindex, hcommand, hb] at h
  exact ⟨s, hwins, h.2 (by decide)⟩

end CollabIde
