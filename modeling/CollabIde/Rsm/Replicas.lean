import CollabIde.Raft.Bounds
import CollabIde.Raft.Snapshots
import CollabIde.Rsm.Replica

/-!
# The replicas of a cluster

A cluster with what stands on each peer's Raft: the message that the applier has in its hands, and
`reader` with the server. The Rafts elect, replicate and answer as in `Cluster`; the rest of a peer
takes the steps of `Replica`. A peer that crashes comes back through `MakeRSM`, with a new server.
-/

namespace CollabIde

variable {n : ℕ} {R V S D : Type}

namespace Replicas

/-- A peer, less its Raft and what the applier has still to send. -/
structure Reader (R S D : Type) where
  loading : Loading (RSM.Op R) D
  sm : S
  reading : Option ℤ
  /-- The messages since `MakeRSM`, each with the server after it. -/
  handled : List (ApplyMsg (RSM.Op R) D × S)
  /-- Those of the earlier lives. -/
  lives : List (List (ApplyMsg (RSM.Op R) D × S))

inductive Action (n : ℕ) (R D : Type) where
  /-- An election, a heartbeat round, a call of `Start`, or a message between two Rafts. -/
  | raft (x : CollabIde.Action n (RSM.Op R) D)
  | applier (i : Fin n)
  | load (i : Fin n)
  | receive (i : Fin n)
  | finish (i : Fin n) (grown : Bool)
  | restart (i : Fin n)
  | crashIn (k : ℕ)

end Replicas

structure Replicas (n : ℕ) (R S D : Type) where
  cluster : Cluster n (RSM.Op R) D
  reader : Fin n → Replicas.Reader R S D

namespace Replicas

variable (σ : StateMachine R V S D) (sm : S) (s : Replicas n R S D)

def replica (i : Fin n) : Replica n R S D where
  raft := (s.cluster.proc i).raft
  applying := (s.cluster.proc i).applying
  loading := (s.reader i).loading
  sm := (s.reader i).sm
  reading := (s.reader i).reading
  handled := (s.reader i).handled

def setReplica (i : Fin n) (r : Replica n R S D) : Replicas n R S D where
  cluster := s.cluster.setProc i
    { s.cluster.proc i with raft := r.raft, applying := r.applying }
  reader := Function.update s.reader i { s.reader i with
    loading := r.loading, sm := r.sm, reading := r.reading, handled := r.handled }

/-- The cluster goes on, and peer `i` gets a new server from `MakeRSM`. -/
def remake (i : Fin n) (c : Cluster n (RSM.Op R) D) : Replicas n R S D where
  cluster := c
  reader :=
    let r := Replica.make σ i (c.proc i).raft.persister sm
    Function.update s.reader i {
      loading := r.loading, sm := r.sm, reading := r.reading, handled := r.handled
      lives := (s.reader i).lives ++ [(s.reader i).handled] }

def crashIn (k : ℕ) : Option (Replicas n R S D) := do
  let q ← s.cluster.requests[k]?
  let c ← s.cluster.crashIn k
  some (s.remake σ sm q.target c)

def step : Action n R D → Option (Replicas n R S D)
  | .raft x => if x.ofRaft then (s.cluster.step x).map fun c => { s with cluster := c } else none
  | .applier i => (s.replica i).applier.map (s.setReplica i)
  | .load i => (s.replica i).load.map (s.setReplica i)
  | .receive i => ((s.replica i).deliver σ).map (s.setReplica i)
  | .finish i grown => ((s.replica i).finish σ grown).map (s.setReplica i)
  | .restart i => some (s.remake σ sm i (s.cluster.setProc i (s.cluster.proc i).restart))
  | .crashIn k => s.crashIn σ sm k

/-- All peers start with nothing saved. -/
def initial : Replicas n R S D where
  cluster := .initial
  reader _ := ⟨.idle, sm, none, [], []⟩

def machine : Machine (Replicas n R S D) (Action n R D) where
  init s := s = initial sm
  step := step σ sm

/-- The step keeps the disciplines of the Rafts. -/
def Ordered (s : Replicas n R S D) : Action n R D → Prop
  | .raft x => s.cluster.FreshTerm x ∧ s.cluster.KeepsEntries x
  | _ => True

instance : ∀ x : Action n R D, Decidable (s.Ordered x)
  | .raft _ => inferInstanceAs (Decidable (_ ∧ _))
  | .applier _ | .load _ | .receive _ | .finish _ _ | .restart _ | .crashIn _ =>
    inferInstanceAs (Decidable True)

variable {σ sm s} {i j : Fin n} {r : Replica n R S D}

/-- A step of the Rafts changes nothing above them. -/
theorem step_raft {x : CollabIde.Action n (RSM.Op R) D} {s' : Replicas n R S D}
    (h : s.step σ sm (.raft x) = some s') : x.ofRaft = true ∧
      ∃ c, s.cluster.step x = some c ∧ s' = { s with cluster := c } := by
  simp only [step] at h
  split at h
  · obtain ⟨c, hc, rfl⟩ := Option.map_eq_some_iff.mp h
    exact ⟨‹_›, c, hc, rfl⟩
  · cases h

@[simp] theorem replica_setReplica : (s.setReplica i r).replica i = r := by
  simp [replica, setReplica, Cluster.setProc]

theorem replica_setReplica_ne (h : j ≠ i) : (s.setReplica i r).replica j = s.replica j := by
  simp [replica, setReplica, Cluster.setProc, h]

@[simp] theorem lives_setReplica : ((s.setReplica i r).reader j).lives = (s.reader j).lives := by
  by_cases h : j = i
  · subst h
    simp [setReplica]
  · simp [setReplica, h]

@[simp] theorem requests_setReplica :
    (s.setReplica i r).cluster.requests = s.cluster.requests := rfl

end Replicas

end CollabIde
