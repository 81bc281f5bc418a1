import CollabIde.Raft.Simulation

/-!
# Election safety and log matching

* `log_matching`: in every run in which no term is won twice, two logs with an entry of the same
  term at the same index agree up to there, wherever both still hold entries.
* `election_safety`: no term is won twice in a run whose replies, when they make a peer step down,
  carry a later term than the peer's or find it without a vote in that term. Otherwise a reply that
  comes late takes the peer back to a term in which it has voted, with no vote
  (`election_safety_fails`).
-/

namespace CollabIde

open Replication State Cluster

variable {n : ℕ} {C D : Type}

/-! ## Log matching -/

/-- **Log matching** with trimmed logs. -/
theorem log_matching {s : Cluster n C D} (hs : (machine n C D).Reachable s)
    (hwins : (s.wins.map Prod.snd).Nodup) {p q : Fin n} {i : ℤ} {e f : LogEntry C}
    (hp : (s.proc p).raft.lastIncludedIndex < i) (hq : (s.proc q).raft.lastIncludedIndex < i)
    (he : (s.proc p).raft.entry i = some e) (hf : (s.proc q).raft.entry i = some f)
    (ht : e.term = f.term) :
    e = f ∧ ∀ j, (s.proc p).raft.lastIncludedIndex < j → (s.proc q).raft.lastIncludedIndex < j →
      j < i → ∃ d, (s.proc p).raft.entry j = some d ∧ (s.proc q).raft.entry j = some d := by
  obtain ⟨a, hR, h⟩ := refined_of_reach (Δ := ⟨False, False, False⟩) id nofun nofun hs
    (.inr hwins)
  have hh : Histories a := .reach hR
  have hkp := (h.peer p).keeps
  have hkq := (h.peer q).keeps
  obtain ⟨hp1, hp2⟩ := hkp.le_of_entry he
  obtain ⟨hq1, hq2⟩ := hkq.le_of_entry hf
  obtain ⟨k, rfl, -, hlp⟩ := hkp.nat_of_le hp1 hp2
  rw [hkq.lastLogIndex] at hq2
  rw [hkp.index] at hp ⊢
  rw [hkq.index] at hq ⊢
  rw [hkp.entry_eq (by omega) hlp] at he
  rw [hkq.entry_eq (by omega) (by omega)] at hf
  -- the histories agree up to the index
  have hpre : (a.node p).hist.take (k - 1) ++ [e] = (a.node q).hist.take (k - 1) ++ [f] :=
    (hh.hist p).matching (hh.hist q) (ends_of_getElem? he) (ends_of_getElem? hf)
      (by simp only [List.length_take]; omega) ht
  obtain ⟨htake, hef⟩ := List.append_inj' hpre rfl
  refine ⟨by simpa using hef, fun j hjp hjq hjk => ?_⟩
  obtain ⟨m, rfl⟩ : ∃ m : ℕ, j = m := ⟨j.toNat, by omega⟩
  rw [hkp.entry_eq (by omega) (by omega), hkq.entry_eq (by omega) (by omega)]
  have hm : (a.node p).hist[m - 1]? = (a.node q).hist[m - 1]? := by
    have h1 := congrArg (·[m - 1]?) htake
    simpa only [List.getElem?_take, show m - 1 < k - 1 by omega, ↓reduceIte] using h1
  obtain ⟨d, hd⟩ : ∃ d, (a.node p).hist[m - 1]? = some d :=
    ⟨_, List.getElem?_eq_getElem (by omega)⟩
  exact ⟨d, hd, hm ▸ hd⟩

/-- A leader commits two entries and trims its log, while a follower keeps both. -/
def trimmingRun : List (Action 3 ℕ Unit) :=
  [.timeout 0, .handle 0, .deliver 0, .start 0 (some 7), .start 0 (some 8), .heartbeat 0,
    .handle 1, .deliver 0, .apply 0, .snapshot 0 1 (some ())]

theorem log_matching_trimmed : ∃ s : Cluster 3 ℕ Unit,
    (s.proc 0).raft.lastIncludedIndex = 1 ∧ (s.proc 1).raft.lastIncludedIndex = 0 ∧
      (s.proc 0).raft.entry 2 = (s.proc 1).raft.entry 2 := by
  obtain ⟨s, hs, hv⟩ := (machine 3 ℕ Unit).reach_of_run (fun _ _ => True)
    (f := fun s => (s.wins.map Prod.snd, (s.proc 0).raft.lastIncludedIndex,
      (s.proc 1).raft.lastIncludedIndex, (s.proc 0).raft.entry 2, (s.proc 1).raft.entry 2))
    (v := ([1], 1, 0, some ⟨1, some 8⟩, some ⟨1, some 8⟩)) trimmingRun rfl rfl
  simp only [Prod.mk.injEq] at hv
  obtain ⟨hw, hp, hq, he, hf⟩ := hv
  refine ⟨s, hp, hq, ?_⟩
  rw [he, hf, (log_matching hs (by rw [hw]; decide) (by rw [hp]; decide) (by rw [hq]; decide)
    he hf rfl).1]

/-! ## Election safety -/

/-- **Election safety**: no term is won twice, if each reply that makes a peer step down carries a
later term than the peer's, or its term while it has no vote in it. -/
theorem election_safety {s : Cluster n C D} (hs : (machine n C D).Reach FreshTerm s) :
    (s.wins.map Prod.snd).Nodup := by
  obtain ⟨a, -, h⟩ := refined_of_reach (Δ := ⟨True, False, False⟩) id (fun _ _ _ h => h) nofun hs
    (.inl trivial)
  exact h.once

theorem election_safety_elects : ∃ s : Cluster 3 ℕ Unit,
    s.wins = [(0, 1)] ∧ (s.wins.map Prod.snd).Nodup := by
  obtain ⟨s, hs, hv⟩ := (machine 3 ℕ Unit).reach_of_run FreshTerm
    (f := fun s => s.wins) (v := [(0, 1)]) [.timeout 0, .handle 0, .deliver 0] rfl rfl
  exact ⟨s, hv, election_safety hs⟩

/-- Peer 1 asks peer 2 for its vote in term 1; peer 2 is in term 2 and wins it with the vote of
peer 1. Only then the rejection of term 2 reaches peer 1, which forgets its vote and gives it to
peer 0. -/
def lateReplyRun : List (Action 3 ℕ Unit) :=
  [.timeout 1, .timeout 2, .timeout 2, .handle 1, .handle 4, .deliver 1, .deliver 0, .timeout 0,
    .timeout 0, .handle 6, .deliver 0]

theorem election_safety_fails :
    ¬ ∀ s : Cluster 3 ℕ Unit, (machine 3 ℕ Unit).Reachable s → (s.wins.map Prod.snd).Nodup := by
  intro h
  obtain ⟨s, hs, hv⟩ := (machine 3 ℕ Unit).reach_of_run (fun _ _ => True)
    (f := fun s => s.wins) (v := [(2, 2), (0, 2)]) lateReplyRun rfl rfl
  exact absurd (h s hs) (by rw [hv]; decide)

end CollabIde
