import CollabIde.Lib.Linearizability
import CollabIde.Rsm.Peers
import CollabIde.Rsm.Replicas

/-!
# The whole replicated service

`MakeRSM` on every peer of a cluster: the replicas, with their Rafts, appliers and servers, and on
each of them the calls of `Submit`, `leaderCheck`, and `reader` with its mutex. A step is one of
`Replicas`, one of `RSM`, or one of both, where they meet: `Start` gets the operation of a call and
answers with what the Raft says, `leaderCheck` gets the Raft's term, `reader` takes the message that
the applier has in its hands, and a crash ends both.

The history is what the callers of `Submit` see. A call that returns ErrWrongLeader, or that a crash
has cut off, has no answer there: its request may have been carried out, and may be later.
-/

namespace CollabIde

open Linearizability (Event)

variable {n : ℕ} {R V S D : Type}

/-- A call of `Submit`: the peer, how often it had been restarted, and the number in this life. -/
abbrev CallId (n : ℕ) : Type := Fin n × ℕ × ℕ

structure Services (n : ℕ) (R V S D : Type) where
  replicas : Replicas n R S D
  /-- Its server `sm` is that of the replica. -/
  rsm : Fin n → RSM R V S
  /-- What calls have given to `Start` on a leader. -/
  proposals : List (RSM.Proposal n R)
  history : List (Event (CallId n) R (Option V))

namespace Services

inductive Action (n : ℕ) (R D : Type) where
  /-- An election, a heartbeat round, or a message between two Rafts. -/
  | raft (x : CollabIde.Action n (RSM.Op R) D)
  | applier (p : Fin n)
  | load (p : Fin n)
  | finish (p : Fin n) (grown : Bool)
  /-- `Submit`, `reader` or `leaderCheck` without the Raft. -/
  | rsm (p : Fin n) (x : RSM.Action R D)
  | start (p : Fin n) (c : ℕ)
  | tick (p : Fin n)
  | receive (p : Fin n)
  | restart (p : Fin n)
  | crashIn (k : ℕ)

variable (σ : StateMachine R V S D) (sm : S) (s : Services n R V S D)

def raft (p : Fin n) : Raft n (RSM.Op R) D := (s.replicas.cluster.proc p).raft

def life (p : Fin n) : ℕ := (s.replicas.cluster.proc p).epoch

def setRsm (p : Fin n) (rsm : RSM R V S) : Services n R V S D :=
  { s with rsm := Function.update s.rsm p rsm }

/-- The answer of a call that unregisters. -/
def answer (p : Fin n) : Option RSM.Goroutine → List (Event (CallId n) R (Option V))
  | some (.submit c) => match ((s.rsm p).calls c).map RSM.Call.phase with
    | some (.unregister ⟨.ok, value⟩) => [.ret (p, s.life p, c) value]
    | _ => []
  | _ => []

/-- What a caller of `Submit` sees of a step. -/
def events (p : Fin n) : RSM.Action R D → List (Event (CallId n) R (Option V))
  | .submit req => [.call (p, s.life p, (s.rsm p).next) req]
  | .grant i _ => s.answer p (s.rsm p).queue[i]?
  | _ => []

/-- `reader` does not lock `mu` before it has looked at the log's size. -/
def allows (p : Fin n) : RSM.Action R D → Bool
  | .submit _ | .receive _ | .send | .unlock => true
  | .grant i _ => (s.rsm p).queue[i]? ≠ some .reader || (s.replicas.reader p).reading.isNone
  | .start _ _ | .message _ | .close | .tick _ => false

/-- `rf.Start(op)` in call `c`. -/
def start (p : Fin n) (c : ℕ) : Option (Services n R V S D) := do
  let call ← (s.rsm p).calls c
  let op : RSM.Op R := ⟨call.req, call.id⟩
  let started := (s.raft p).start (some op)
  let answer := if started.2.2.2 then some (started.2.1, started.2.2.1) else none
  let rsm ← (s.rsm p).start c answer
  let replicas ← s.replicas.step σ sm (.raft (.start p (some op)))
  some { s.setRsm p rsm with
    replicas := replicas
    proposals := s.proposals ++ answer.toList.map fun a => ⟨p, s.life p, c, a.1, op⟩ }

/-- `reader` gets the message. -/
def receive (p : Fin n) : Option (Services n R V S D) :=
  match (s.replicas.reader p).loading with
  | .message m => do
    let replicas ← s.replicas.step σ sm (.receive p)
    let rsm ← (s.rsm p).message σ m
    some { s.setRsm p rsm with replicas := replicas }
  | _ => none

/-- `MakeRSM` on peer `p`. -/
def remake (p : Fin n) (replicas : Replicas n R S D) : Services n R V S D :=
  { s.setRsm p (.make p (replicas.reader p).sm) with replicas := replicas }

def crashIn (k : ℕ) : Option (Services n R V S D) := do
  let q ← s.replicas.cluster.requests[k]?
  let replicas ← s.replicas.step σ sm (.crashIn k)
  some (s.remake q.target replicas)

def step : Action n R D → Option (Services n R V S D)
  | .raft (.start _ _) => none
  | .raft x => (s.replicas.step σ sm (.raft x)).map fun r => { s with replicas := r }
  | .applier p => (s.replicas.step σ sm (.applier p)).map fun r => { s with replicas := r }
  | .load p => (s.replicas.step σ sm (.load p)).map fun r => { s with replicas := r }
  | .finish p grown =>
    (s.replicas.step σ sm (.finish p grown)).map fun r => { s with replicas := r }
  | .rsm p x =>
    if s.allows p x then ((s.rsm p).step σ x).map fun rsm =>
      { s.setRsm p rsm with history := s.history ++ s.events p x }
    else none
  | .start p c => s.start σ sm p c
  | .tick p => ((s.rsm p).tick (s.raft p).currentTerm).map (s.setRsm p)
  | .receive p => s.receive σ sm p
  | .restart p => (s.replicas.step σ sm (.restart p)).map (s.remake p)
  | .crashIn k => s.crashIn σ sm k

/-- All peers start with nothing saved. -/
def initial : Services n R V S D where
  replicas := .initial sm
  rsm p := .make p sm
  proposals := []
  history := []

def machine : Machine (Services n R V S D) (Action n R D) where
  init s := s = initial sm
  step := step σ sm

/-- The call does not get an index at which the peer has given its id to `Start` in an earlier
life. -/
def NewAt (s : Services n R V S D) (p : Fin n) (c : ℕ) : Prop :=
  ∀ call ∈ (s.rsm p).calls c, (s.raft p).currentRole = .leader → ∀ e ∈ s.proposals,
    e.peer = p → e.index = (s.raft p).lastLogIndex + 1 → e.op.id = call.id → e.life = s.life p

/-- The step keeps the disciplines of the Rafts, new ids are made of numbers below `2^32`, and no id
is used again at the same index. -/
def Lawful (s : Services n R V S D) : Action n R D → Prop
  | .raft x => s.replicas.Ordered (.raft x)
  | .rsm p x => (s.rsm p).Fits x
  | .start p c => s.NewAt p c
  | _ => True

instance (s : Services n R V S D) (p : Fin n) (c : ℕ) : Decidable (s.NewAt p c) :=
  inferInstanceAs (Decidable (∀ call ∈ (s.rsm p).calls c, _ → ∀ e ∈ s.proposals, _))

instance (s : Services n R V S D) : (x : Action n R D) → Decidable (s.Lawful x)
  | .raft x => inferInstanceAs (Decidable (s.replicas.Ordered (.raft x)))
  | .rsm p x => inferInstanceAs (Decidable ((s.rsm p).Fits x))
  | .start p c => inferInstanceAs (Decidable (s.NewAt p c))
  | .applier _ | .load _ | .finish _ _ | .tick _ | .receive _ | .restart _ | .crashIn _ =>
    .isTrue trivial

/-! ## What a step does -/

/-- What a step of the RSM gives to `Start`. -/
def proposed (p : Fin n) : RSM.Action R D → List (RSM.Proposal n R)
  | .start c (some (index, _)) => ((s.rsm p).calls c).toList.map fun call =>
      ⟨p, s.life p, c, index, ⟨call.req, call.id⟩⟩
  | _ => []

/-- The RSM of peer `p` takes a step. -/
def setStep (p : Fin n) (x : RSM.Action R D) (rsm : RSM R V S) (r : Replicas n R S D) :
    Services n R V S D where
  replicas := r
  rsm := Function.update s.rsm p rsm
  proposals := s.proposals ++ s.proposed p x
  history := s.history ++ s.events p x

/-- What `Start` answers to the call. -/
def Answers (p : Fin n) (c : ℕ) (call : RSM.Call R V) (answer : Option (ℤ × ℤ)) : Prop :=
  (s.rsm p).calls c = some call ∧
    ((s.raft p).currentRole ≠ .leader ∧ answer = none ∨ (s.raft p).currentRole = .leader ∧
      answer = some ((s.raft p).lastLogIndex + 1, (s.raft p).currentTerm))

/-- Each action with its guard and its result. -/
inductive Stepped : Action n R D → Services n R V S D → Prop
  | raft {x : CollabIde.Action n (RSM.Op R) D} {r : Replicas n R S D} :
    (∀ i command, x ≠ .start i command) → s.replicas.step σ sm (.raft x) = some r →
    Stepped (.raft x) { s with replicas := r }
  | applier {p : Fin n} {r : Replicas n R S D} : s.replicas.step σ sm (.applier p) = some r →
    Stepped (.applier p) { s with replicas := r }
  | load {p : Fin n} {r : Replicas n R S D} : s.replicas.step σ sm (.load p) = some r →
    Stepped (.load p) { s with replicas := r }
  | finish {p : Fin n} {grown : Bool} {r : Replicas n R S D} :
    s.replicas.step σ sm (.finish p grown) = some r →
    Stepped (.finish p grown) { s with replicas := r }
  | rsm {p : Fin n} {x : RSM.Action R D} {q : RSM R V S} : s.allows p x = true →
    (s.rsm p).step σ x = some q → Stepped (.rsm p x) (s.setStep p x q s.replicas)
  | start {p : Fin n} {c : ℕ} {call : RSM.Call R V} {answer : Option (ℤ × ℤ)} {q : RSM R V S}
    {r : Replicas n R S D} : s.Answers p c call answer →
    (s.rsm p).step σ (.start c answer : RSM.Action R D) = some q →
    s.replicas.step σ sm (.raft (.start p (some ⟨call.req, call.id⟩))) = some r →
    Stepped (.start p c) (s.setStep p (.start c answer : RSM.Action R D) q r)
  | tick {p : Fin n} {q : RSM R V S} :
    (s.rsm p).step σ (.tick (s.raft p).currentTerm : RSM.Action R D) = some q →
    Stepped (.tick p) (s.setStep p (.tick (s.raft p).currentTerm : RSM.Action R D) q s.replicas)
  | receive {p : Fin n} {m : ApplyMsg (RSM.Op R) D} {q : RSM R V S} {r : Replicas n R S D} :
    (s.replicas.reader p).loading = .message m → s.replicas.step σ sm (.receive p) = some r →
    (s.rsm p).step σ (.message m) = some q →
    Stepped (.receive p) (s.setStep p (.message m) q r)
  | restart {p : Fin n} {r : Replicas n R S D} : s.replicas.step σ sm (.restart p) = some r →
    Stepped (.restart p) (s.remake p r)
  | crashIn {k : ℕ} {q : Envelope n (Rpc (RSM.Op R) D)} {r : Replicas n R S D} :
    s.replicas.cluster.requests[k]? = some q → s.replicas.step σ sm (.crashIn k) = some r →
    Stepped (.crashIn k) (s.remake q.target r)

variable {σ sm s} {s' : Services n R V S D}

/-- A step without a call of `Start` gives nothing to it. -/
theorem setStep_eq {p : Fin n} {x : RSM.Action R D} {q : RSM R V S}
    (hx : ∀ c answer, x ≠ .start c answer) : s.setStep p x q s.replicas =
      { s.setRsm p q with history := s.history ++ s.events p x } := by
  have hnil : s.proposed p x = [] := by
    unfold proposed
    split
    · exact absurd rfl (hx _ _)
    · rfl
  rw [setStep, hnil, List.append_nil]
  rfl

theorem rsm_setStep_self {p : Fin n} {x : RSM.Action R D} {q : RSM R V S} {r : Replicas n R S D} :
    (s.setStep p x q r).rsm p = q := Function.update_self ..

theorem rsm_setStep_ne {p j : Fin n} {x : RSM.Action R D} {q : RSM R V S} {r : Replicas n R S D}
    (h : j ≠ p) : (s.setStep p x q r).rsm j = s.rsm j := Function.update_of_ne h ..

theorem rsm_remake_self {p : Fin n} {r : Replicas n R S D} :
    (s.remake p r).rsm p = .make p (r.reader p).sm := Function.update_self ..

theorem rsm_remake_ne {p j : Fin n} {r : Replicas n R S D} (h : j ≠ p) :
    (s.remake p r).rsm j = s.rsm j := Function.update_of_ne h ..

/-- What the Raft answers. -/
theorem answer_start (p : Fin n) (command : Option (RSM.Op R)) :
    (if ((s.raft p).start command).2.2.2 then
        some (((s.raft p).start command).2.1, ((s.raft p).start command).2.2.1) else none) =
      if (s.raft p).currentRole = .leader then
        some ((s.raft p).lastLogIndex + 1, (s.raft p).currentTerm) else none := by
  unfold Raft.start
  by_cases hrole : (s.raft p).currentRole = .leader
  · rw [if_neg (not_not.mpr hrole), if_pos hrole, if_pos rfl]
  · rw [if_pos hrole, if_neg hrole, if_neg Bool.false_ne_true]

theorem stepped_start {p : Fin n} {c : ℕ} (h : s.start σ sm p c = some s') :
    Stepped σ sm s (.start p c) s' := by
  obtain ⟨call, hcall, h⟩ := Option.bind_eq_some_iff.mp h
  dsimp only at h
  rw [answer_start] at h
  generalize hans : (if (s.raft p).currentRole = .leader then
    some ((s.raft p).lastLogIndex + 1, (s.raft p).currentTerm) else none) = answer at h
  obtain ⟨q, hq, h⟩ := Option.bind_eq_some_iff.mp h
  obtain ⟨r, hr, h⟩ := Option.bind_eq_some_iff.mp h
  have hanswers : s.Answers p c call answer := by
    refine ⟨hcall, ?_⟩
    split at hans
    · rename_i hrole
      exact .inr ⟨hrole, hans.symm⟩
    · rename_i hrole
      exact .inl ⟨hrole, hans.symm⟩
  have heq : s.setStep p (.start c answer : RSM.Action R D) q r = s' := by
    rw [← Option.some.inj h, setStep]
    cases answer with
    | none => simp [proposed, events, setRsm]
    | some a => simp [proposed, events, setRsm, hcall]
  exact heq ▸ .start hanswers hq hr

/-- **The cases of a step.** -/
theorem stepped {x : Action n R D} (h : s.step σ sm x = some s') : Stepped σ sm s x s' := by
  cases x with
  | raft x =>
    have hx : ∀ i command, x ≠ .start i command := by
      rintro i command rfl
      cases h
    have h' : (s.replicas.step σ sm (.raft x)).map (fun r => { s with replicas := r }) =
        some s' := by
      cases x with
      | start i command => exact absurd rfl (hx i command)
      | _ => exact h
    obtain ⟨r, hr, rfl⟩ := Option.map_eq_some_iff.mp h'
    exact .raft hx hr
  | applier p =>
    obtain ⟨r, hr, rfl⟩ := Option.map_eq_some_iff.mp h
    exact .applier hr
  | load p =>
    obtain ⟨r, hr, rfl⟩ := Option.map_eq_some_iff.mp h
    exact .load hr
  | finish p grown =>
    obtain ⟨r, hr, rfl⟩ := Option.map_eq_some_iff.mp h
    exact .finish hr
  | rsm p x =>
    simp only [step] at h
    split at h
    · rename_i hallows
      obtain ⟨q, hq, rfl⟩ := Option.map_eq_some_iff.mp h
      rw [← setStep_eq]
      · exact .rsm hallows hq
      · rintro c answer rfl
        cases hallows
    · cases h
  | start p c => exact stepped_start h
  | tick p =>
    obtain ⟨q, hq, rfl⟩ := Option.map_eq_some_iff.mp h
    convert Stepped.tick hq using 1
    simp only [setStep, proposed, events, List.append_nil]
    rfl
  | receive p =>
    simp only [step, receive] at h
    split at h
    · rename_i m hloading
      obtain ⟨r, hr, h⟩ := Option.bind_eq_some_iff.mp h
      obtain ⟨q, hq, h⟩ := Option.bind_eq_some_iff.mp h
      cases h
      convert Stepped.receive hloading hr hq using 1
      simp only [setStep, proposed, events, List.append_nil]
      rfl
    · cases h
  | restart p =>
    have h' : (s.replicas.step σ sm (.restart p)).map (s.remake p) = some s' := h
    obtain ⟨r, hr, rfl⟩ := Option.map_eq_some_iff.mp h'
    exact .restart hr
  | crashIn k =>
    obtain ⟨q, hq, h⟩ := Option.bind_eq_some_iff.mp h
    obtain ⟨r, hr, h⟩ := Option.bind_eq_some_iff.mp h
    cases h
    exact .crashIn hq hr

end Services

end CollabIde
