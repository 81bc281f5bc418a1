import Mathlib.Logic.Relation
import CollabIde.Lib.Run
import CollabIde.Lib.History

/-!
# Replication of one history by elected leaders

The protocol that a replicated log with elections follows, over whole histories: no entry is ever
discarded from the front, and no message is represented beyond what it promises.

* A **node** has a current term and the term on its stable storage (`saved`, which may lag), a
  vote, a role, its history, and two positions: `commit` and `base` (the start of what it still
  keeps, from which it restarts).
* The **record** of the past: the candidacies (`stood`), the votes (`voted`), the leader of each
  term with the history it had last (`ldr`), what leaders sent (`sent`, `snap`), and how much of
  a term's leader history each node has stored (`ack`). Records only grow.
* A **step** (`Step D`) is one change of one node. The disciplines `D` say which of the steps that
  endanger safety are excluded: `terms` (a node never returns to an earlier term), `acks` (a
  node never drops an entry of the leader whose history it takes), and `commits` (only positions
  that a majority has stored are learned, and only learned positions are compacted).
-/

namespace CollabIde.Replication

inductive Role where
  | follower | candidate | leader
  deriving DecidableEq

structure Node (N T E : Type) where
  term : T
  saved : T
  vote : Option N
  role : Role
  hist : List E
  commit : ℕ
  base : ℕ

structure State (N T E : Type) where
  node : N → Node N T E
  /-- The candidate stood in the term with this history. -/
  stood : N → T → List E → Prop
  /-- The voter voted in the term for the candidate. -/
  voted : N → T → N → Prop
  /-- The leader of the term and its last history as the leader. -/
  ldr : T → Option (N × List E)
  /-- The leader of the term sent its history, with its `commit`. -/
  sent : T → List E → ℕ → Prop
  /-- The leader of the term sent its first `base` entries. -/
  snap : T → ℕ → Prop
  /-- How much of the history of the term's leader the node has stored. -/
  ack : N → T → ℕ

/-- The disciplines (module doc). -/
structure Discipline where
  terms : Prop
  acks : Prop
  commits : Prop

variable {N T E : Type}

/-- The term is a later one, or the node has no vote in it. -/
def Node.Renews [LT T] (x : Node N T E) (t : T) : Prop := x.term < t ∨ x.term = t ∧ x.vote = none

theorem Node.Renews.le [Preorder T] {x : Node N T E} {t : T} (h : x.Renews t) :
    x.term ≤ t :=
  h.elim le_of_lt fun h => h.1.le

open Classical in
/-- The history after the first entries `m` have arrived: the old one if it starts with them. -/
noncomputable def installed (h m : List E) : List E := if m <+: h then h else m

theorem installed_of_isPrefix {h m : List E} (hp : m <+: h) : installed h m = h := if_pos hp

theorem installed_of_not_isPrefix {h m : List E} (hp : ¬ m <+: h) : installed h m = m := if_neg hp

theorem length_le_installed (h m : List E) : m.length ≤ (installed h m).length := by
  by_cases hp : m <+: h
  · rw [installed_of_isPrefix hp]; exact hp.length_le
  · rw [installed_of_not_isPrefix hp]

section Updates

/-! ### One node, one record -/

variable [DecidableEq N] (a : State N T E) (v w : N) (x : Node N T E)

/-- The state with `x` for node `v`. -/
def State.set : State N T E := { a with node := Function.update a.node v x }

theorem set_node : (a.set v x).node w = if w = v then x else a.node w := by
  simp [State.set, Function.update_apply]

@[simp] theorem set_node_self : (a.set v x).node v = x := by simp [State.set]

@[simp] theorem set_node_ne {v w : N} (hw : w ≠ v) : (a.set v x).node w = a.node w := by
  simp [State.set, hw]

@[simp] theorem set_stood : (a.set v x).stood = a.stood := rfl
@[simp] theorem set_voted : (a.set v x).voted = a.voted := rfl
@[simp] theorem set_ldr : (a.set v x).ldr = a.ldr := rfl
@[simp] theorem set_sent : (a.set v x).sent = a.sent := rfl
@[simp] theorem set_snap : (a.set v x).snap = a.snap := rfl
@[simp] theorem set_ack : (a.set v x).ack = a.ack := rfl

variable [DecidableEq T] (t u : T) (k : ℕ) (h : List E)

/-- The state in which node `v` has stored `k` entries of the history of term `t`'s leader. -/
def State.setAck : State N T E :=
  { a with ack := fun w u => if w = v ∧ u = t then max (a.ack w u) k else a.ack w u }

theorem setAck_ack : (a.setAck v t k).ack w u =
    if w = v ∧ u = t then max (a.ack w u) k else a.ack w u := rfl

@[simp] theorem setAck_node : (a.setAck v t k).node = a.node := rfl
@[simp] theorem setAck_stood : (a.setAck v t k).stood = a.stood := rfl
@[simp] theorem setAck_voted : (a.setAck v t k).voted = a.voted := rfl
@[simp] theorem setAck_ldr : (a.setAck v t k).ldr = a.ldr := rfl
@[simp] theorem setAck_sent : (a.setAck v t k).sent = a.sent := rfl
@[simp] theorem setAck_snap : (a.setAck v t k).snap = a.snap := rfl

omit [DecidableEq N]

/-- The state in which `v` leads term `t` with the history `h`. -/
def State.setLdr : State N T E := { a with ldr := Function.update a.ldr t (some (v, h)) }

theorem setLdr_ldr : (a.setLdr v t h).ldr u = if u = t then some (v, h) else a.ldr u := by
  simp [State.setLdr, Function.update_apply]

@[simp] theorem setLdr_node : (a.setLdr v t h).node = a.node := rfl
@[simp] theorem setLdr_stood : (a.setLdr v t h).stood = a.stood := rfl
@[simp] theorem setLdr_voted : (a.setLdr v t h).voted = a.voted := rfl
@[simp] theorem setLdr_sent : (a.setLdr v t h).sent = a.sent := rfl
@[simp] theorem setLdr_snap : (a.setLdr v t h).snap = a.snap := rfl
@[simp] theorem setLdr_ack : (a.setLdr v t h).ack = a.ack := rfl

end Updates

section Protocol

variable [DecidableEq N] [Fintype N] [LinearOrder T] [HasTerm E T]

namespace State

variable (a : State N T E)

/-- A majority has stored the first `i` entries of the history of term `t`'s leader. -/
def Chosen (t : T) (i : ℕ) : Prop := ∃ Q : Finset N, IsMajority Q ∧ ∀ v ∈ Q, i ≤ a.ack v t

/-- A majority has stored them or is still free to do so. -/
def Choosable (t : T) (i : ℕ) : Prop :=
  ∃ Q : Finset N, IsMajority Q ∧ ∀ v ∈ Q, i ≤ a.ack v t ∨ (a.node v).saved ≤ t

/-- `q` ends with an entry that the leader of term `t` added in its term. -/
def Mark (t : T) (q : List E) : Prop :=
  ∃ c L p e, a.ldr t = some (c, L) ∧ q <+: L ∧ q = p ++ [e] ∧ termOf e = t

/-- `p` is part of a history that a majority has stored in a term up to `t`. -/
def Committed (p : List E) (t : T) : Prop :=
  p = [] ∨ ∃ u q, u ≤ t ∧ a.Mark u q ∧ a.Chosen u q.length ∧ p <+: q

/-- A term without a vote, stored at once. -/
def reset (v : N) (t : T) : State N T E :=
  a.set v { a.node v with term := t, saved := t, vote := none, role := .follower }

/-- A new term that is not stored. -/
def raise (v : N) (t : T) : State N T E :=
  a.set v { a.node v with term := t, role := .follower }

def demote (v : N) : State N T E := a.set v { a.node v with role := .follower }

/-- `v` stands in term `t` and votes for itself. -/
def campaign (v : N) (t : T) : State N T E :=
  { a.set v { a.node v with term := t, saved := t, vote := some v, role := .candidate } with
    stood := fun c u h => a.stood c u h ∨ c = v ∧ u = t ∧ h = (a.node v).hist
    voted := fun w u c => a.voted w u c ∨ w = v ∧ u = t ∧ c = v }

/-- `v` votes for `c` in its current term. -/
def grant (v c : N) : State N T E :=
  { a.set v { a.node v with vote := some c, saved := (a.node v).term } with
    voted := fun w u d => a.voted w u d ∨ w = v ∧ u = (a.node v).term ∧ d = c }

/-- `c` becomes the leader of its term. -/
def win (c : N) : State N T E :=
  ((a.set c { a.node c with role := .leader }).setLdr c (a.node c).term (a.node c).hist).setAck c
    (a.node c).term (a.node c).hist.length

/-- The leader `c` adds an entry. -/
def append (c : N) (e : E) : State N T E :=
  ((a.set c { a.node c with hist := (a.node c).hist ++ [e], saved := (a.node c).term }).setLdr
    c (a.node c).term ((a.node c).hist ++ [e])).setAck c (a.node c).term
      ((a.node c).hist.length + 1)

/-- The leader `c` sends its history. -/
def send (c : N) : State N T E :=
  { a with sent := fun t M k => a.sent t M k ∨
      t = (a.node c).term ∧ M = (a.node c).hist ∧ k = (a.node c).commit }

/-- The leader `c` sends what it no longer keeps. -/
def sendSnap (c : N) : State N T E :=
  { a with snap := fun t k => a.snap t k ∨ t = (a.node c).term ∧ k = (a.node c).base }

/-- `v` takes the history `M` of its term's leader. -/
def accept (v : N) (M : List E) : State N T E :=
  (a.set v { a.node v with hist := M, saved := (a.node v).term }).setAck v (a.node v).term M.length

/-- `v` takes the first entries `m` of the history of its term's leader. -/
noncomputable def install (v : N) (m : List E) : State N T E :=
  a.set v { a.node v with
    hist := installed (a.node v).hist m, saved := (a.node v).term, base := m.length
    commit := max (a.node v).commit m.length }

/-- `v` learns that its first `k` entries are committed. -/
def learn (v : N) (k : ℕ) : State N T E := a.set v { a.node v with commit := k }

/-- `v` forgets its first `k` entries. -/
def compact (v : N) (k : ℕ) : State N T E :=
  a.set v { a.node v with base := k, saved := (a.node v).term }

/-- `v` starts again from its stable storage. -/
def restart (v : N) : State N T E :=
  a.set v { a.node v with
    term := (a.node v).saved, role := .follower, commit := (a.node v).base }

end State

open State

/-- One change of one node. -/
inductive Step (D : Discipline) (a : State N T E) : State N T E → Prop
  | reset (v : N) (t : T) :
    (D.terms → (a.node v).Renews t) → Step D a (a.reset v t)
  | raise (v : N) (t : T) : (a.node v).term < t → Step D a (a.raise v t)
  | demote (v : N) : Step D a (a.demote v)
  | campaign (v : N) (t : T) : (a.node v).term < t → Step D a (a.campaign v t)
  | grant (v c : N) (h : List E) : a.stood c (a.node v).term h →
      (a.node v).vote = none ∨ (a.node v).vote = some c → UpToDate h (a.node v).hist →
      Step D a (a.grant v c)
  | win (c : N) (Q : Finset N) : (a.node c).role = .candidate → IsMajority Q →
      (∀ v ∈ Q, a.voted v (a.node c).term c) → a.ldr (a.node c).term = none → Step D a (a.win c)
  | append (c : N) (e : E) : (a.node c).role = .leader → termOf e = (a.node c).term →
      Step D a (a.append c e)
  | send (c : N) : (a.node c).role = .leader → Step D a (a.send c)
  | sendSnap (c : N) : (a.node c).role = .leader → Step D a (a.sendSnap c)
  | accept (v : N) (M : List E) (k : ℕ) : a.sent (a.node v).term M k →
      (a.node v).role = .follower → (a.node v).base ≤ M.length →
      (D.acks → ∀ x ∈ (a.node v).hist.drop M.length, termOf x ≠ (a.node v).term) →
      Step D a (a.accept v M)
  | install (v c : N) (L m : List E) : a.snap (a.node v).term m.length →
      a.ldr (a.node v).term = some (c, L) → m <+: L → (a.node v).role = .follower →
      (a.node v).base < m.length → Step D a (a.install v m)
  | learn (v : N) (k : ℕ) : (D.commits → (a.node v).base ≤ k ∧ k ≤ (a.node v).hist.length ∧
      a.Committed ((a.node v).hist.take k) (a.node v).saved) → Step D a (a.learn v k)
  | compact (v : N) (k : ℕ) : (a.node v).base ≤ k → k ≤ (a.node v).hist.length →
      (D.commits → k ≤ (a.node v).commit) → Step D a (a.compact v k)
  | restart (v : N) : Step D a (a.restart v)

/-- Nothing has happened yet: `t₀` is the first term. -/
structure Start (t₀ : T) (a : State N T E) : Prop where
  node : ∀ v, a.node v = ⟨t₀, t₀, none, .follower, [], 0, 0⟩
  stood : ∀ c t h, ¬ a.stood c t h
  voted : ∀ v t c, ¬ a.voted v t c
  ldr : ∀ t, a.ldr t = none
  sent : ∀ t M k, ¬ a.sent t M k
  snap : ∀ t k, ¬ a.snap t k
  ack : ∀ v t, a.ack v t = 0

/-- The states that steps under `D` reach from a start. -/
inductive Reach (D : Discipline) (t₀ : T) : State N T E → Prop
  | start {a : State N T E} : Start t₀ a → Reach D t₀ a
  | step {a a' : State N T E} : Reach D t₀ a → Step D a a' → Reach D t₀ a'

theorem Reach.steps {D : Discipline} {t₀ : T} {a a' : State N T E} (h : Reach D t₀ a)
    (hs : Relation.ReflTransGen (Step D) a a') : Reach D t₀ a' := by
  induction hs with
  | refl => exact h
  | tail _ hst ih => exact .step ih hst

end Protocol

end CollabIde.Replication
