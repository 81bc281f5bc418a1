import CollabIde.Raft.Simulation

/-!
# Acknowledged entries stay

In a run whose replies carry fresh terms and whose appends keep the leader's entries, what a
leader counts for a peer of its term (`matchIndex`) is still in that peer's log, and so is what a
peer has answered `Success` for (`acknowledged_entries_stay`). `AppendEntries` cuts the log behind
`PrevLogIndex` whether or not it conflicts, so an older request that is handled after a newer one
takes acknowledged entries away (`acknowledged_entries_lost`).
-/

namespace CollabIde

open Replication State Cluster

variable {n : ℕ} {C D : Type}

/-- What a leader counts for a peer was stored by it in the term, or is behind its snapshot. -/
def Stored (s : Cluster n C D) (a : RaftState n C) : Prop :=
  ∀ i, (s.proc i).raft.currentRole = .leader → ∀ j,
    (s.proc i).raft.matchIndex j ≤ a.ack j (s.proc i).raft.currentTerm ∨
      (s.proc i).raft.matchIndex j ≤ (a.node j).base

theorem Raft.make_currentRole (i : Fin n) (ps : Persister C D) :
    (Raft.make i ps).currentRole = .follower := by
  rw [Raft.make_eq]; rfl

theorem Stored.step {s s' : Cluster n C D} {a a' : RaftState n C} {x : Action n C D}
    (h : Stored s a) (hr : Refined s a) (hg : Grows a a') (hs : s.step x = some s') :
    Stored s' a' := by
  intro i hlead j
  have hmono : ∀ {m : ℤ} {t : ℤ}, m ≤ a.ack j t ∨ m ≤ (a.node j).base →
      m ≤ a'.ack j t ∨ m ≤ (a'.node j).base := fun {m t} h => by
    have h1 := hg.ack j t
    have h2 := hg.base j
    omega
  cases (stepped hs).peer i with
  | continues _ _ hc _ =>
    rw [hc.matchIndex hlead, hc.term hlead]
    exact hmono (h i (hc.role hlead) j)
  | restart _ _ _ hrf => rw [hrf, Raft.make_currentRole] at hlead; cases hlead
  | win _ _ hrf =>
    rw [hrf]
    exact .inl (by simp [Raft.becomeLeader])
  | applies _ hrun =>
    obtain ⟨k, hrf⟩ := Raft.applier_eq hrun
    rw [hrf] at hlead ⊢
    exact hmono (h i hlead j)
  | appended q args reply _ _ hq _ _ hb _ ht hl hrep =>
    have hans := hr.replies q hq
    rw [hb] at hans
    obtain ⟨-, -, hack⟩ := hans
    generalize (s'.proc i).raft = rf' at hrep ⊢
    cases hrep with
    | advance hsucc _ =>
      simp only
      by_cases hj : j = q.target
      · subst hj
        rw [Function.update_self, ht]
        exact hmono (.inl (hack hsucc))
      · rw [Function.update_of_ne hj]
        exact hmono (h i hl j)
    | retreat _ _ => exact hmono (h i hl j)
  | snapped q args reply _ _ hq _ _ hb hle ht hl hrf =>
    have hans := hr.replies q hq
    rw [hb] at hans
    obtain ⟨-, -, hbase⟩ := hans
    rw [hrf]
    simp only
    by_cases hj : j = q.target
    · subst hj
      rw [Function.update_self]
      exact hmono (.inr (hbase hle))
    · rw [Function.update_of_ne hj]
      exact hmono (h i hl j)

/-- A step of the discipline of terms and acks. -/
def Ordered (s : Cluster n C D) (x : Action n C D) : Prop := s.FreshTerm x ∧ s.KeepsEntries x

instance (s : Cluster n C D) (x : Action n C D) : Decidable (Ordered s x) :=
  inferInstanceAs (Decidable (_ ∧ _))

theorem stored_of_reach {s : Cluster n C D} (hs : (machine n C D).Reach Ordered s) :
    ∃ a, Replication.Reach ⟨True, True, False⟩ 0 a ∧ Refined s a ∧ Stored s a := by
  induction hs with
  | init hi =>
    cases hi
    exact ⟨_, .start blankState_start, .initial blankState_start, fun i h => by cases h⟩
  | @step s s' x _ hok hst ih =>
    obtain ⟨a, hR, h, hstored⟩ := ih
    obtain ⟨a', hsteps, h'⟩ := h.step (Δ := ⟨True, True, False⟩) hR nofun (fun _ => hok.1)
      (fun _ => hok.2) nofun nofun (.inl trivial) hst
    exact ⟨a', hR.steps hsteps, h', hstored.step h (grows_of_steps hR hsteps) hst⟩

section Entries

variable {s : Cluster n C D} {a : RaftState n C}

/-- What a peer has stored of the history of its term's leader is in its log. -/
theorem entry_of_ack {j c : Fin n} {L : List (LogEntry C)} {i : ℕ} (hr : Refined s a)
    (he : Elections a) (ha : Acks a)
    (hL : a.ldr (s.proc j).raft.currentTerm = some (c, L))
    (hi : i ≤ a.ack j (s.proc j).raft.currentTerm)
    (hj : (s.proc j).raft.lastIncludedIndex < i) :
    (s.proc j).raft.entry i = L[i - 1]? := by
  have hk := (hr.peer j).keeps
  have hpre := ha.now_of_le ((he.saved j).trans (hr.peer j).term.le) hL
  have hlen := hpre.length_le
  have hL' := ha.ack_le_length (v := j) hL
  rw [List.length_take] at hlen
  rw [hk.index] at hj
  rw [hk.entry_eq (by omega) (by omega)]
  obtain ⟨r, hr⟩ := hpre
  rw [← hr, List.getElem?_append_left (by rw [List.length_take]; omega), List.getElem?_take,
    if_pos (by omega)]

end Entries

/-- A peer in the term of a leader still has the entries that the leader counts for it, and those
that it has answered `Success` for. -/
structure KeepsAcknowledged (s : Cluster n C D) : Prop where
  counted : ∀ l j i, (s.proc l).raft.currentRole = .leader →
    (s.proc j).raft.currentTerm = (s.proc l).raft.currentTerm →
    i ≤ (s.proc l).raft.matchIndex j → (s.proc l).raft.lastIncludedIndex < i →
    (s.proc j).raft.lastIncludedIndex < i →
    ∃ e, (s.proc j).raft.entry i = some e ∧ (s.proc l).raft.entry i = some e
  answered : ∀ q ∈ s.replies, ∀ args reply, q.body = .append args reply → reply.success = true →
    (s.proc q.target).raft.currentTerm = args.term → ∀ (k : ℕ) e, args.entries[k]? = some e →
    (s.proc q.target).raft.lastIncludedIndex < args.prevLogIndex + 1 + k →
    (s.proc q.target).raft.entry (args.prevLogIndex + 1 + k) = some e

/-- **Acknowledged entries stay.** -/
theorem acknowledged_entries_stay {s : Cluster n C D} (hs : (machine n C D).Reach Ordered s) :
    KeepsAcknowledged s := by
  obtain ⟨a, hR, hr, hstored⟩ := stored_of_reach hs
  have hh : Histories a := .reach hR
  have he : Elections a := .reach trivial hR
  have ha : Acks a := .reach trivial trivial hR
  refine ⟨?_, ?_⟩
  · intro l j i hlead hterm hm hl hj
    have hkl := (hr.peer l).keeps
    have hkj := (hr.peer j).keeps
    have hL := hh.leader ((hr.peer l).role.trans hlead)
    rw [(hr.peer l).term] at hL
    have hi0 : (a.node l).base < i := hkl.index ▸ hl
    obtain ⟨k, rfl⟩ : ∃ k : ℕ, i = k := ⟨i.toNat, by omega⟩
    have hk : k ≤ a.ack j (s.proc l).raft.currentTerm := by
      rcases hstored l hlead j with h1 | h1
      · omega
      · rw [hkj.index] at hj; omega
    have hlen := hk.trans (ha.ack_le_length hL)
    have hej := entry_of_ack hr he ha (hterm ▸ hL) (hterm ▸ hk) hj
    rw [hej, hkl.entry_eq (by omega) hlen]
    exact ⟨_, List.getElem?_eq_getElem (by omega), List.getElem?_eq_getElem (by omega)⟩
  · intro q hq args reply hb hsucc hterm k e hke hj
    have hans := hr.replies q hq
    rw [hb] at hans
    obtain ⟨-, ⟨M, c, p, hsent⟩, hack⟩ := hans
    obtain ⟨d, L, hL, hp, -⟩ := hh.sent hsent.sent
    have hack' := hack hsucc
    rw [hsent.length] at hack'
    have hMk : M[p + k]? = some e := by rw [← hke, hsent.entries, List.getElem?_drop]
    have hlt := (List.getElem?_eq_some_iff.mp hMk).1
    rw [hsent.prevLogIndex, show (p : ℤ) + 1 + k = ((p + k + 1 : ℕ) : ℤ) by push_cast; ring] at hj ⊢
    rw [entry_of_ack hr he ha (hterm ▸ hL) (by rw [hterm]; omega) hj, Nat.add_sub_cancel]
    obtain ⟨r, rfl⟩ := hp
    rw [List.getElem?_append_left hlt, hMk]

theorem acknowledged_entries_replicated : ∃ s : Cluster 3 ℕ Unit,
    (s.proc 0).raft.matchIndex 1 = 1 ∧
      ∃ e, (s.proc 1).raft.entry 1 = some e ∧ (s.proc 0).raft.entry 1 = some e := by
  obtain ⟨s, hs, hv⟩ := (machine 3 ℕ Unit).reach_of_run Ordered
    (f := fun s => ((s.proc 0).raft.matchIndex 1, (s.proc 0).raft.currentRole,
      (s.proc 1).raft.currentTerm, (s.proc 0).raft.currentTerm,
      (s.proc 0).raft.lastIncludedIndex, (s.proc 1).raft.lastIncludedIndex))
    (v := (1, .leader, 1, 1, 0, 0))
    [.timeout 0, .handle 0, .deliver 0, .start 0 (some 7), .heartbeat 0, .handle 1, .deliver 0]
    rfl rfl
  simp only [Prod.mk.injEq] at hv
  obtain ⟨hm, hlead, ht, ht', hl, hl'⟩ := hv
  exact ⟨s, hm, (acknowledged_entries_stay hs).counted 0 1 1 hlead (ht.trans ht'.symm) hm.ge
    (by rw [hl]; decide) (by rw [hl']; decide)⟩

/-- A heartbeat without entries is handled after the append of an entry that peer 1 has
acknowledged and the leader has counted. -/
def reorderedRun : List (Action 3 ℕ Unit) :=
  [.timeout 0, .handle 0, .deliver 0, .heartbeat 0, .start 0 (some 7), .heartbeat 0, .handle 3,
    .deliver 0, .handle 1]

theorem acknowledged_entries_lost : ¬ ∀ s : Cluster 3 ℕ Unit,
    (machine 3 ℕ Unit).Reachable s → KeepsAcknowledged s := by
  intro h
  obtain ⟨s, hs, hv⟩ := (machine 3 ℕ Unit).reach_of_run (fun _ _ => True)
    (f := fun s => ((s.proc 0).raft.matchIndex 1, (s.proc 0).raft.currentRole,
      (s.proc 1).raft.currentTerm, (s.proc 0).raft.currentTerm,
      (s.proc 0).raft.lastIncludedIndex, (s.proc 1).raft.lastIncludedIndex,
      (s.proc 1).raft.entry 1))
    (v := (1, .leader, 1, 1, 0, 0, none)) reorderedRun rfl rfl
  simp only [Prod.mk.injEq] at hv
  obtain ⟨hm, hlead, ht, ht', hl, hl', hnone⟩ := hv
  obtain ⟨e, he, -⟩ := (h s hs).counted 0 1 1 hlead (ht.trans ht'.symm) hm.ge
    (by rw [hl]; decide) (by rw [hl']; decide)
  rw [hnone] at he
  cases he

end CollabIde
