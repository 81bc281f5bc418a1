import CollabIde.Raft.Counting

/-!
# The heartbeat goroutines

One peer with the goroutines that `go rf.heartbeat()` starts, each at one of three points of its
loop. A goroutine returns when it finds, under the lock, that the peer does not lead, or before it,
that the peer is dead; a leader that is alive has one (`leader_beats`). There is at most one exactly
as long as between two elections that are won a goroutine wakes up and finds one of these
(`one_heartbeat`): one that waits when the leadership goes and comes back goes on, next to a new one.
-/

namespace CollabIde

variable {n : ℕ} {C D : Type}

/-- Where a heartbeat goroutine is. -/
inductive HeartbeatPoint where
  /-- It looks whether the peer is dead. -/
  | check
  /-- It takes the lock, and sends a round of requests if the peer leads. -/
  | round
  /-- It waits for a new entry, or for 100 ms. -/
  | wait
  deriving DecidableEq

/-- A peer with its elections and the heartbeat goroutines that have not returned. -/
structure Heartbeat (n : ℕ) (C D : Type) where
  peer : Candidate n C D
  loops : List HeartbeatPoint
  killed : Bool
  /-- Since the last win a goroutine has woken up and looked in vain: the peer did not lead under the
  lock, or was dead before it. -/
  lookedInVain : Bool

namespace Heartbeat

inductive Action (n : ℕ) (C D : Type) where
  | peer (x : Candidate.Action n C D)
  /-- The next step of a goroutine. -/
  | loop (i : ℕ)
  | kill

variable (s : Heartbeat n C D)

/-- The peer becomes the leader in the step. -/
def becomesLeader : Candidate.Action n C D → Bool
  | .reply i _ r => s.peer.elections[i]?.any fun e =>
    (s.peer.raft.voteReply e.voteCount e.args r).2.2
  | _ => false

/-- A goroutine goes on, or returns. -/
def loop (i : ℕ) : Option (Heartbeat n C D) :=
  match s.loops[i]? with
  | none => none
  | some .check =>
    some { s with
      loops := if s.killed then s.loops.eraseIdx i else s.loops.set i .round
      lookedInVain := s.lookedInVain || s.killed }
  | some .round => some { s with
      loops := if s.peer.raft.currentRole ≠ .leader then s.loops.eraseIdx i
        else s.loops.set i .wait
      lookedInVain := s.lookedInVain || decide (s.peer.raft.currentRole ≠ .leader) }
  | some .wait => some { s with loops := s.loops.set i .check }

def step : Action n C D → Option (Heartbeat n C D)
  | .peer x => (s.peer.step x).map fun peer => { s with
      peer := peer
      loops := if s.becomesLeader x then s.loops ++ [.check] else s.loops
      lookedInVain := s.lookedInVain && !s.becomesLeader x }
  | .loop i => s.loop i
  | .kill => some { s with killed := true }

def machine (n : ℕ) (C D : Type) : Machine (Heartbeat n C D) (Action n C D) where
  init s := ∃ me persister, s = ⟨⟨.make me persister, []⟩, [], false, true⟩
  step := step

/-- The reply completes a majority for the peer, which stands in the election `i`. -/
def Wins (i : ℕ) (r : RequestVoteReply) : Prop :=
  ∃ e ∈ s.peer.elections[i]?, r.term ≤ e.args.term ∧ s.peer.raft.currentTerm = e.args.term ∧
    s.peer.raft.currentRole = .candidate ∧
    n / 2 + 1 ≤ if r.voteGranted then e.voteCount + 1 else e.voteCount

instance (i : ℕ) (r : RequestVoteReply) : Decidable (s.Wins i r) :=
  inferInstanceAs (Decidable (∃ e ∈ s.peer.elections[i]?, _))

/-- An election is won once a goroutine has looked in vain since the last one. -/
def Rested : Action n C D → Prop
  | .peer (.reply i _ r) => s.Wins i r → s.lookedInVain = true
  | _ => True

instance : (x : Action n C D) → Decidable (s.Rested x)
  | .peer (.reply i _ r) => inferInstanceAs (Decidable (s.Wins i r → s.lookedInVain = true))
  | .peer (.call _) | .peer .start | .loop _ | .kill => .isTrue trivial

variable {s} {s' : Heartbeat n C D}

theorem becomesLeader_iff {i : ℕ} {j : Fin n} {r : RequestVoteReply} :
    s.becomesLeader (.reply i j r) = true ↔ s.Wins i r := by
  simp only [becomesLeader, Wins]
  cases s.peer.elections[i]? with
  | none => exact iff_of_false (by simp) fun ⟨_, he, _⟩ => by cases he
  | some e =>
    rw [Option.any_some]
    have hp := Raft.polled s.peer.raft e.voteCount e.args r
    generalize (s.peer.raft.voteReply e.voteCount e.args r).1 = rf at hp
    generalize (s.peer.raft.voteReply e.voteCount e.args r).2.1 = count at hp
    generalize (s.peer.raft.voteReply e.voteCount e.args r).2.2 = won at hp
    simp only [Option.mem_def, Option.some.injEq, exists_eq_left']
    cases hp with
    | down hlt => exact iff_of_false (by decide) fun h => absurd h.1 hlt.not_ge
    | late _ hout => exact iff_of_false (by decide) fun h => hout ⟨h.2.1, h.2.2.1⟩
    | counted _ _ _ hlt => exact iff_of_false (by decide) fun h => absurd h.2.2.2 hlt.not_ge
    | won hle hterm hrole hge => exact iff_of_true rfl ⟨hle, hterm, hrole, hge⟩

/-- There is one goroutine, or none, and there is none exactly if the last one has looked in vain. -/
structure Single (s : Heartbeat n C D) : Prop where
  le : s.loops.length ≤ 1
  looked : s.lookedInVain = true ↔ s.loops = []

/-- A goroutine goes on as the only one, or returns as it has looked in vain. -/
theorem Single.loop (h : s.Single) {i : ℕ} (hst : s.loop i = some s') : s'.Single := by
  have hgoes {p : HeartbeatPoint} (hl : s'.loops = s.loops.set i p)
      (hv : s'.lookedInVain = s.lookedInVain) : s'.Single := by
    refine ⟨?_, ?_⟩
    · rw [hl, List.length_set]
      exact h.le
    · rw [hl, hv, List.set_eq_nil_iff]
      exact h.looked
  have hreturns {p : HeartbeatPoint} (hp : s.loops[i]? = some p)
      (hl : s'.loops = s.loops.eraseIdx i) (hv : s'.lookedInVain = true) : s'.Single := by
    have hnil : s'.loops = [] := by
      obtain ⟨hi, -⟩ := List.getElem?_eq_some_iff.mp hp
      have hlen := List.length_eraseIdx_of_lt hi
      have hle := h.le
      rw [hl]
      exact List.length_eq_zero_iff.mp (by omega)
    exact ⟨by rw [hnil]; exact Nat.zero_le 1, iff_of_true hv hnil⟩
  unfold Heartbeat.loop at hst
  split at hst
  · cases hst
  · rename_i hp
    cases hst
    by_cases hk : s.killed = true
    · exact hreturns hp (by simp [hk]) (by simp [hk])
    · exact hgoes (p := .round) (by simp [hk]) (by simp [hk])
  · rename_i hp
    cases hst
    by_cases hl : s.peer.raft.currentRole = .leader
    · exact hgoes (p := .wait) (by simp [hl]) (by simp [hl])
    · exact hreturns hp (by simp [hl]) (by simp [hl])
  · cases hst
    exact hgoes rfl rfl

/-- A step keeps the number of goroutines at one, unless it is a win that comes too early. -/
theorem Single.step_iff (h : s.Single) {x : Action n C D} (hst : s.step x = some s') :
    (s'.loops.length ≤ 1 ↔ s.Rested x) ∧ (s.Rested x → s'.Single) := by
  have hkeep (hs : s'.Single) (hx : s.Rested x) :
      (s'.loops.length ≤ 1 ↔ s.Rested x) ∧ (s.Rested x → s'.Single) :=
    ⟨iff_of_true hs.le hx, fun _ => hs⟩
  cases x with
  | peer x =>
    obtain ⟨peer, -, rfl⟩ := Option.map_eq_some_iff.mp hst
    have hquiet (hl : s.becomesLeader x = false) : Single { s with
        peer := peer
        loops := if s.becomesLeader x then s.loops ++ [.check] else s.loops
        lookedInVain := s.lookedInVain && !s.becomesLeader x } :=
      ⟨by simpa [hl] using h.le, by simpa [hl] using h.looked⟩
    cases x with
    | call c => exact hkeep (hquiet rfl) trivial
    | start => exact hkeep (hquiet rfl) trivial
    | reply i j r =>
      by_cases hwin : s.Wins i r
      · have hl := becomesLeader_iff (j := j).mpr hwin
        have hrested : s.Rested (.peer (.reply i j r)) ↔ s.loops = [] :=
          ⟨fun hr => h.looked.mp (hr hwin), fun hnil _ => h.looked.mpr hnil⟩
        dsimp only
        rw [hrested, if_pos hl, List.length_append, List.length_singleton]
        refine ⟨⟨fun hle => List.length_eq_zero_iff.mp (by omega), fun hnil => ?_⟩, fun hnil => ?_⟩
        · rw [hnil]
          rfl
        · exact ⟨by simp [hnil], by simp [hl]⟩
      · exact hkeep (hquiet (by simpa using mt becomesLeader_iff.mp hwin))
          fun hw => absurd hw hwin
  | loop i => exact hkeep (h.loop hst) trivial
  | kill =>
    cases hst
    exact hkeep ⟨h.le, h.looked⟩ trivial

/-- **At most one heartbeat goroutine**, exactly as long as a goroutine looks in vain between two
elections that are won. -/
theorem one_heartbeat (hs : (machine n C D).Reach Rested s) : s.loops.length ≤ 1 ∧
    ∀ x s', s.step x = some s' → (s'.loops.length ≤ 1 ↔ s.Rested x) := by
  have hsingle : s.Single := by
    refine hs.invariant (I := Single) (fun s h0 => ?_)
      fun s x s' _ h ho hst => (h.step_iff hst).2 ho
    obtain ⟨me, persister, rfl⟩ := h0
    exact ⟨Nat.zero_le 1, iff_of_true rfl rfl⟩
  exact ⟨hsingle.le, fun x s' hst => (hsingle.step_iff hst).1⟩

/-- Peer 0 wins term 1 with the vote of peer 1, its goroutine sends the heartbeats and waits, and a
reply takes the peer to term 2. -/
def ousted : List (Action 3 ℕ Unit) :=
  [.peer .start, .peer (.reply 0 1 ⟨1, true⟩), .loop 0, .loop 0,
    .peer (.call (.appendReply 2 ⟨1, 0, 0, 0, [], 0⟩ { term := 2 }))]

/-- The peer leads again. -/
def regained : List (Action 3 ℕ Unit) := [.peer .start, .peer (.reply 1 1 ⟨3, true⟩)]

/-- The goroutine wakes up and returns before the next election. -/
theorem one_heartbeat_rested : ∃ s : Heartbeat 3 ℕ Unit, s.peer.raft.currentRole = .leader ∧
    s.loops.length ≤ 1 := by
  obtain ⟨s, hs, hv⟩ := (machine 3 ℕ Unit).reach_of_run Rested
    (f := fun s => s.peer.raft.currentRole) (v := .leader)
    (ousted ++ [.loop 0, .loop 0, .loop 0] ++ regained) ⟨0, ⟨none, none⟩, rfl⟩ (by decide +kernel)
  exact ⟨s, hv, (one_heartbeat hs).1⟩

/-- It is still waiting when the peer wins again. -/
theorem two_heartbeats : ¬ ∀ s : Heartbeat 3 ℕ Unit, (machine 3 ℕ Unit).Reachable s →
    s.loops.length ≤ 1 := by
  intro h
  obtain ⟨s, hs, hv⟩ := (machine 3 ℕ Unit).reach_of_run (fun _ _ => True)
    (f := fun s => s.loops) (v := [.wait, .check])
    (ousted ++ regained) ⟨0, ⟨none, none⟩, rfl⟩ (by decide +kernel)
  have hle := h s hs
  rw [hv] at hle
  exact absurd hle (by decide)

/-! ## A leader has a heartbeat -/

/-- Only a win makes a leader. -/
theorem step_leader {x : Candidate.Action n C D} {peer : Candidate n C D}
    (h : s.peer.step x = some peer) (hl : peer.raft.currentRole = .leader) :
    s.peer.raft.currentRole = .leader ∨ s.becomesLeader x = true := by
  cases x with
  | call c =>
    obtain ⟨-, -, hf | ⟨hr, -⟩⟩ := Candidate.call_cases h
    · cases hf.symm.trans hl
    · exact .inl (hr ▸ hl)
  | start =>
    obtain ⟨-, hr, -⟩ := Candidate.start_cases h
    cases hr.symm.trans hl
  | reply i j r =>
    obtain ⟨e, he, -, -, count, won, hp, -⟩ := Candidate.reply_cases h
    rw [becomesLeader_iff]
    generalize peer.raft = rf at hp hl
    cases hp with
    | down _ => cases hl
    | late _ _ => exact .inl hl
    | counted _ _ _ _ => exact .inl hl
    | won hle hterm hrole hge => exact .inr ⟨e, he, hle, hterm, hrole, hge⟩

/-- A leader that has not been killed has a heartbeat goroutine. -/
theorem leader_beats {ok : Heartbeat n C D → Action n C D → Prop} (hs : (machine n C D).Reach ok s)
    (hl : s.peer.raft.currentRole = .leader) (hk : s.killed = false) : s.loops ≠ [] := by
  refine hs.invariant (I := fun s => s.peer.raft.currentRole = .leader → s.killed = false →
    s.loops ≠ []) (fun s h0 hl => ?_) (fun s x s' _ h _ hst hl hk => ?_) hl hk
  · obtain ⟨me, persister, rfl⟩ := h0
    change ((Raft.blank me persister).readPersist persister.raftstate).currentRole = .leader at hl
    unfold Raft.readPersist at hl
    split at hl <;> cases hl
  · cases x with
    | peer x =>
      obtain ⟨peer, hp, rfl⟩ := Option.map_eq_some_iff.mp hst
      dsimp only
      split
      · exact List.append_ne_nil_of_right_ne_nil _ (List.cons_ne_nil _ _)
      · rename_i hwin
        exact h ((step_leader hp hl).resolve_right hwin) hk
    | loop i =>
      change s.loop i = some s' at hst
      unfold loop at hst
      split at hst
      · cases hst
      · cases hst
        dsimp only at hk hl ⊢
        rw [if_neg (by rw [hk]; decide)]
        exact fun hnil => h hl hk ((List.set_eq_nil_iff _ _).mp hnil)
      · cases hst
        dsimp only at hk hl ⊢
        rw [if_neg (not_not.mpr hl)]
        exact fun hnil => h hl hk ((List.set_eq_nil_iff _ _).mp hnil)
      · cases hst
        exact fun hnil => h hl hk ((List.set_eq_nil_iff _ _).mp hnil)
    | kill =>
      cases hst
      cases hk

end Heartbeat

end CollabIde
