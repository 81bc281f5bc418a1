import Mathlib.Data.Fintype.Fin
import CollabIde.Ide.Handlers
import CollabIde.Rsm.Leading

/-!
# Redirects

A node that does not lead answers a command with a redirect to `leaderPort`. `MainCluster` sets it
to the base port of the cluster and nothing adds the index of the leader, so every redirect leads
to node 0. A client gets to the leader by redirects exactly if node 0 leads, or if it starts there;
and a leader that tells none of its calls of a snapshot redirects no client whose command is
committed (`redirects_lead_to_leader`).
-/

namespace CollabIde

open RSM

variable {n : ℕ} {R V S D : Type} {σ : StateMachine R V S D} {l start : Fin n} {T : ℤ}
  {s : Peers n R V S}

/-- The fields that `MainCluster` gives to the server. -/
def mainCluster (basePort : ℕ) : Config Unit where
  rsm := true
  leaderPort := basePort
  emptyText _ := true

/-- The port on which `MainCluster` serves a node. -/
def httpPort (basePort me : ℕ) : ℕ := basePort + me

/-- Node `i` does not lead, so that it redirects its client, and node `j` serves the port that
`sendRedirect` names. -/
def Redirects (basePort : ℕ) (l i j : Fin n) : Prop :=
  i ≠ l ∧ httpPort basePort j = (mainCluster basePort).leaderPort

/-- `submit` returns true: the client is not redirected. -/
def Accepted (r : OpResult V) : Prop := r.err = .ok

/-- A call of the peer's present life whose command is committed. -/
def CommittedCall (s : Peers n R V S) (p : Fin n) (c : ℕ) : Prop :=
  ∃ e ∈ s.committed, e.peer = p ∧ e.life = s.life p ∧ e.call = c

/-- Redirects lead to node 0. -/
theorem redirected_to_leader_iff (basePort : ℕ) (l start : Fin n) :
    Relation.ReflTransGen (Redirects basePort l) start l ↔ (l : ℕ) = 0 ∨ start = l := by
  constructor
  · intro h
    rcases h.cases_tail with rfl | ⟨i, -, -, hport⟩
    · exact .inr rfl
    · left
      unfold httpPort mainCluster at hport
      dsimp only at hport
      omega
  · rintro (hl | rfl)
    · by_cases hstart : start = l
      · rw [hstart]
      · refine .single ⟨hstart, ?_⟩
        rw [httpPort, hl]
        rfl
    · exact .refl

/-- **Redirects lead to the leader** `l` exactly if it is node 0 or the client starts there; and in
a run in which it leads in term `T` and tells no call of a snapshot, it accepts the calls whose
commands are committed. -/
theorem redirects_lead_to_leader (basePort : ℕ) (hs : (Peers.reign σ l T).Reach
      (fun s x => Peers.Leads l T x ∧ s.NoSnapshotWakes l T x) s) :
    (∀ start, Relation.ReflTransGen (Redirects basePort l) start l ↔ (l : ℕ) = 0 ∨ start = l) ∧
      ∀ c call r, (s.rsm l).calls c = some call → call.term = T → call.phase = .done r →
        CommittedCall s l c → Accepted r := by
  refine ⟨redirected_to_leader_iff basePort l, fun c call r hc hterm hdone hcommitted => ?_⟩
  obtain ⟨e, he, hpeer, hlife, hcall⟩ := hcommitted
  exact Peers.leader_answers hs hc hterm hdone he hpeer hlife hcall

/-! ## A leader other than node 0 -/

/-- Three servers that add up. -/
def threeAdders : Peers 3 ℕ ℕ ℕ where
  rsm p := make p 0
  life _ := 0
  applied _ := 0
  proposals := []
  committed := []

theorem threeAdders_init : (Peers.machine adder).init threeAdders := ⟨fun _ => ⟨0, rfl⟩, rfl, rfl⟩

/-- Node 1 leads from the start, and answers a call. -/
theorem redirects_lead_to_leader_served : ∃ s : Peers 3 ℕ ℕ ℕ,
    ((s.rsm 1).calls 0).map (·.phase) = some (.done ⟨.ok, some 5⟩) ∧ CommittedCall s 1 0 ∧
      (∀ start, Relation.ReflTransGen (Redirects 8080 1) start (1 : Fin 3) ↔
        (1 : Fin 3).val = 0 ∨ start = 1) ∧
      ∀ c call r, (s.rsm 1).calls c = some call → call.term = 1 → call.phase = .done r →
        CommittedCall s 1 c → Accepted r := by
  have hbefore : threeAdders.Before 1 1 :=
    ⟨fun c call hc => (by cases hc), fun term hterm => (by cases hterm), fun hread => by cases hread⟩
  have h : (Peers.reign adder (1 : Fin 3) 1).Reach
      (fun s x => Peers.Leads 1 1 x ∧ s.NoSnapshotWakes 1 1 x) threeAdders :=
    .init ⟨.init threeAdders_init, hbefore⟩
  have h := h.step (x := Peers.Action.peer 1 (.submit 5)) ⟨trivial, trivial⟩ rfl
  have h := h.step (x := Peers.Action.peer 1 (.grant 0 [])) ⟨trivial, fun _ _ => trivial⟩ rfl
  have h := h.step (x := Peers.Action.peer 1 (.start 0 (some (1, 1))))
    ⟨fun _ => ⟨1, rfl⟩, trivial⟩ rfl
  have h := h.step (x := Peers.Action.peer 1 (.grant 0 [])) ⟨trivial, fun _ _ => trivial⟩ rfl
  have h := h.step (x := Peers.Action.commit 0) ⟨trivial, trivial⟩ rfl
  have h := h.step (x := Peers.Action.apply 1) ⟨trivial, trivial⟩ rfl
  have h := h.step (x := Peers.Action.peer 1 (.grant 0 [1])) ⟨trivial, fun _ _ => trivial⟩ rfl
  have h := h.step (x := Peers.Action.peer 1 .send) ⟨trivial, trivial⟩ rfl
  have h := h.step (x := Peers.Action.peer 1 .unlock) ⟨trivial, trivial⟩ rfl
  have h := h.step (x := Peers.Action.peer 1 (.receive 0)) ⟨trivial, trivial⟩ rfl
  have h := h.step (x := Peers.Action.peer 1 (.grant 0 [])) ⟨trivial, fun _ _ => trivial⟩ rfl
  exact ⟨_, rfl, ⟨_, List.mem_cons_self, rfl, rfl, rfl⟩, redirects_lead_to_leader 8080 h⟩

/-- From node 0 of three, redirects do not lead to node 1; and node 1, which leads after node 0,
takes the snapshot of what node 0 has committed while a call waits, and redirects its client. Then
the call's command is committed. -/
theorem redirected_elsewhere :
    (¬ ∀ (n basePort : ℕ) (l start : Fin n),
      Relation.ReflTransGen (Redirects basePort l) start l) ∧
    ¬ ∀ s : Peers 3 ℕ ℕ ℕ, (Peers.reign adder 1 2).Reach (fun _ x => Peers.Leads 1 2 x) s →
      ∀ c call r, (s.rsm 1).calls c = some call → call.term = 2 → call.phase = .done r →
        CommittedCall s 1 c → Accepted r := by
  refine ⟨fun h => ?_, fun h => ?_⟩
  · rcases (redirected_to_leader_iff 8080 (1 : Fin 3) 0).mp (h 3 8080 1 0) with hl | hstart
    · exact absurd hl (by decide)
    · exact absurd hstart (by decide)
  · -- node 0 leads, and its command is committed
    have h₀ : (Peers.machine adder).Reach (fun _ _ => True) threeAdders := .init threeAdders_init
    have h₀ := h₀.step (x := Peers.Action.peer 0 (.submit 5)) trivial rfl
    have h₀ := h₀.step (x := Peers.Action.peer 0 (.grant 0 [])) trivial rfl
    have h₀ := h₀.step (x := Peers.Action.peer 0 (.start 0 (some (1, 1)))) trivial rfl
    have h₀ := h₀.step (x := Peers.Action.commit 0) trivial rfl
    -- node 1 leads
    have h₁ : (Peers.reign adder (1 : Fin 3) 2).Reach (fun _ x => Peers.Leads 1 2 x) _ :=
      .init ⟨h₀, fun c call hc => (by cases hc), fun term hterm => (by cases hterm),
        fun hread => by cases hread⟩
    have h₁ := h₁.step (x := Peers.Action.peer 1 (.submit 7)) trivial rfl
    have h₁ := h₁.step (x := Peers.Action.peer 1 (.grant 0 [])) trivial rfl
    have h₁ := h₁.step (x := Peers.Action.peer 1 (.start 0 (some (2, 2)))) (fun _ => ⟨2, rfl⟩) rfl
    have h₁ := h₁.step (x := Peers.Action.peer 1 (.grant 0 [])) trivial rfl
    have h₁ := h₁.step (x := Peers.Action.install 1 1 (some 5)) trivial rfl
    have h₁ := h₁.step (x := Peers.Action.peer 1 (.grant 0 [2])) trivial rfl
    have h₁ := h₁.step (x := Peers.Action.peer 1 .send) trivial rfl
    have h₁ := h₁.step (x := Peers.Action.peer 1 .unlock) trivial rfl
    have h₁ := h₁.step (x := Peers.Action.peer 1 (.receive 0)) trivial rfl
    have h₁ := h₁.step (x := Peers.Action.peer 1 (.grant 0 [])) trivial rfl
    have h₁ := h₁.step (x := Peers.Action.commit 1) trivial rfl
    have haccepted := h _ h₁ 0 _ _ rfl rfl rfl ⟨_, List.mem_append_right _ List.mem_cons_self, rfl,
      rfl, rfl⟩
    cases haccepted

end CollabIde
