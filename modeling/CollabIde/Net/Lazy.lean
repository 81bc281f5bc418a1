import CollabIde.Net.Progress

/-!
# Calls that redial

`lazyClient` keeps one connection to a peer, dials it at the first call of `RPC`, and drops it when
a call on it has failed; the next call dials again, while others may still wait on the old
connection. The connections are those of `Demux`, each with the server's side of its own.
-/

namespace CollabIde

namespace LazyClient

/-- Where a call of `RPC` is. -/
inductive Phase (B : Type) where
  /-- Before it locks `mu`. -/
  | entered
  /-- It has the client of a connection. -/
  | dialed (c : ℕ)
  /-- In `SendReceive`, as call `k` of the connection. -/
  | sent (c k : ℕ)
  /-- Its client has returned false; before it locks `mu` again. -/
  | failed (c k : ℕ) (rep : Option B)
  | done (place : Option (ℕ × ℕ)) (rep : Option B) (ok : Bool)
  deriving DecidableEq

structure Rpc (B : Type) where
  svcMeth : String
  args : B
  phase : Phase B

inductive Action (B : Type) where
  /-- A goroutine calls `RPC`. -/
  | rpc (svcMeth : String) (args : B)
  /-- The call takes the client, or dials: `TryNewRPCClnt` succeeds or fails. -/
  | take (i : ℕ) (dialed : Bool)
  | send (i : ℕ)
  /-- A step on a connection that is not a call of `SendReceive`. -/
  | conn (c : ℕ) (x : Demux.Action B)
  | receive (i : ℕ)
  | drop (i : ℕ)
  /-- `Close`; it closes the connection as well, which is a step on it. -/
  | close

/-- The connection and the call of `SendReceive`. -/
def Phase.place {B : Type} : Phase B → Option (ℕ × ℕ)
  | .sent c k | .failed c k _ => some (c, k)
  | .done place _ _ => place
  | _ => none

end LazyClient

/-- A caller of `SendReceive` enters. -/
def Demux.Action.isCall {B : Type} : Demux.Action B → Bool
  | .call _ => true
  | _ => false

/-- A `lazyClient`, with all connections that it has made. -/
structure LazyClient (B : Type) where
  conns : List (Demux B)
  clnt : Option ℕ
  calls : List (LazyClient.Rpc B)

namespace LazyClient

variable {B : Type}

section Step

-- `marshall` encodes the `RPCArgs`; `init` is the first message of a connection.
variable (marshall : String → B → B) (init : B) (s : LazyClient B)

def setPhase (i : ℕ) (r : Rpc B) (p : Phase B) : LazyClient B :=
  { s with calls := s.calls.set i { r with phase := p } }

def take (i : ℕ) (dialed : Bool) : Option (LazyClient B) :=
  match s.calls[i]? with
  | some r =>
    match r.phase, s.clnt with
    | .entered, some c => some (s.setPhase i r (.dialed c))
    | .entered, none =>
      if dialed then
        some { s.setPhase i r (.dialed s.conns.length) with
          conns := s.conns ++ [.initial init], clnt := some s.conns.length }
      else some (s.setPhase i r (.done none none false))
    | _, _ => none
  | none => none

def send (i : ℕ) : Option (LazyClient B) :=
  match s.calls[i]? with
  | some r =>
    match r.phase with
    | .dialed c => do
      let d ← s.conns[c]?
      let d' ← d.step (.call (marshall r.svcMeth r.args))
      some { s.setPhase i r (.sent c d.calls.length) with conns := s.conns.set c d' }
    | _ => none
  | none => none

/-- `RPCClnt.RPC` returns: an error is a failure without a reply. -/
def receive (i : ℕ) : Option (LazyClient B) :=
  match s.calls[i]? with
  | some r =>
    match r.phase with
    | .sent c k => do
      let d ← s.conns[c]?
      let call ← d.calls[k]?
      match call.phase with
      | .returned reply =>
        if reply.err then some (s.setPhase i r (.failed c k none))
        else if reply.ok then some (s.setPhase i r (.done (some (c, k)) reply.rep true))
        else some (s.setPhase i r (.failed c k reply.rep))
      | .refused => some (s.setPhase i r (.failed c k none))
      | _ => none
    | _ => none
  | none => none

/-- The connection may be dead: the next call dials. -/
def drop (i : ℕ) : Option (LazyClient B) :=
  match s.calls[i]? with
  | some r =>
    match r.phase with
    | .failed c k rep => some { s.setPhase i r (.done (some (c, k)) rep false) with
        clnt := if s.clnt = some c then none else s.clnt }
    | _ => none
  | none => none

def step : Action B → Option (LazyClient B)
  | .rpc svcMeth args => some { s with calls := s.calls ++ [⟨svcMeth, args, .entered⟩] }
  | .take i dialed => s.take init i dialed
  | .send i => s.send marshall i
  | .conn c x =>
    if x.isCall then none
    else do
      let d ← s.conns[c]?
      let d' ← d.step x
      some { s with conns := s.conns.set c d' }
  | .receive i => s.receive i
  | .drop i => s.drop i
  | .close => some { s with clnt := none }

def machine : Machine (LazyClient B) (Action B) where
  init s := s = ⟨[], none, []⟩
  step := step marshall init

/-- The step keeps the counters of the tags from running over. -/
def Counts : Action B → Prop
  | .conn c x => ∀ d ∈ s.conns[c]?, d.Counts x
  | _ => True

instance : ∀ x : Action B, Decidable (s.Counts x)
  | .conn _ _ => inferInstanceAs (Decidable (∀ d ∈ _, _))
  | .rpc .. | .take .. | .send _ | .receive _ | .drop _ | .close => .isTrue trivial

/-- The phases of a call that is not in `SendReceive`, one after the other. -/
inductive Moves : Phase B → Phase B → Option ℕ → Prop
  | take {c : ℕ} : s.clnt = some c → Moves .entered (.dialed c) s.clnt
  | refuse : s.clnt = none → Moves .entered (.done none none false) s.clnt
  | fail {c k : ℕ} {d : Demux B} {call : Demux.Call B} {rep : Option B} :
    s.conns[c]? = some d → d.calls[k]? = some call → call.phase.Done →
    Moves (.sent c k) (.failed c k rep) s.clnt
  | succeed {c k : ℕ} {d : Demux B} {call : Demux.Call B} {rep : Option B} :
    s.conns[c]? = some d → d.calls[k]? = some call → call.phase = .returned ⟨rep, true, false⟩ →
    Moves (.sent c k) (.done (some (c, k)) rep true) s.clnt
  | drop {c k : ℕ} {rep : Option B} : Moves (.failed c k rep) (.done (some (c, k)) rep false)
    (if s.clnt = some c then none else s.clnt)

/-- What a step does. -/
inductive Stepped (s' : LazyClient B) : Action B → Prop
  | rpc {svcMeth : String} {args : B} :
    s' = { s with calls := s.calls ++ [⟨svcMeth, args, .entered⟩] } → Stepped s' (.rpc svcMeth args)
  | dial {i : ℕ} {r : Rpc B} : s.calls[i]? = some r → r.phase = .entered → s.clnt = none →
    s' = { s.setPhase i r (.dialed s.conns.length) with
      conns := s.conns ++ [.initial init], clnt := some s.conns.length } → Stepped s' (.take i true)
  | move {i : ℕ} {r : Rpc B} {p : Phase B} {clnt : Option ℕ} {x : Action B} :
    s.calls[i]? = some r → s.Moves r.phase p clnt → s' = { s.setPhase i r p with clnt := clnt } →
    x = .drop i ∨ x = .receive i ∨ (∃ dialed, x = .take i dialed) → Stepped s' x
  | send {i c : ℕ} {r : Rpc B} {d d' : Demux B} : s.calls[i]? = some r → r.phase = .dialed c →
    s.conns[c]? = some d → d.step (.call (marshall r.svcMeth r.args)) = some d' →
    s' = { s.setPhase i r (.sent c d.calls.length) with conns := s.conns.set c d' } →
    Stepped s' (.send i)
  | conn {c : ℕ} {x : Demux.Action B} {d d' : Demux B} : x.isCall = false →
    s.conns[c]? = some d → d.step x = some d' → s' = { s with conns := s.conns.set c d' } →
    Stepped s' (.conn c x)
  | close : s' = { s with clnt := none } → Stepped s' .close

variable {marshall init s} in
theorem stepped {s' : LazyClient B} {x : Action B} (h : s.step marshall init x = some s') :
    s.Stepped marshall init s' x := by
  cases x with
  | rpc svcMeth args => cases h; exact .rpc rfl
  | take i dialed =>
    simp only [step, take] at h
    split at h
    · rename_i r hi
      split at h
      · rename_i hp hclnt
        cases h
        exact .move hi (hp ▸ .take hclnt) rfl (.inr (.inr ⟨dialed, rfl⟩))
      · rename_i hp hclnt
        split at h
        · rename_i hd
          cases hd
          cases h
          exact .dial hi hp hclnt rfl
        · cases h
          exact .move hi (hp ▸ .refuse hclnt) rfl (.inr (.inr ⟨dialed, rfl⟩))
      · cases h
    · cases h
  | send i =>
    simp only [step, send] at h
    split at h
    · rename_i r hi
      split at h
      · rename_i c hp
        obtain ⟨d, hd, h⟩ := Option.bind_eq_some_iff.mp h
        obtain ⟨d', hd', h⟩ := Option.bind_eq_some_iff.mp h
        cases h
        exact .send hi hp hd hd' rfl
      · cases h
    · cases h
  | conn c x =>
    simp only [step] at h
    split at h
    · cases h
    · rename_i hx
      obtain ⟨d, hd, h⟩ := Option.bind_eq_some_iff.mp h
      obtain ⟨d', hd', h⟩ := Option.bind_eq_some_iff.mp h
      cases h
      exact .conn (Bool.eq_false_iff.mpr hx) hd hd' rfl
  | receive i =>
    simp only [step, receive] at h
    split at h
    · rename_i r hi
      split at h
      · rename_i c k hp
        obtain ⟨d, hd, h⟩ := Option.bind_eq_some_iff.mp h
        obtain ⟨call, hcall, h⟩ := Option.bind_eq_some_iff.mp h
        split at h
        · rename_i reply hreply
          have hdone : call.phase.Done := by rw [hreply]; trivial
          split at h
          · cases h
            exact .move hi (hp ▸ .fail hd hcall hdone) rfl (.inr (.inl rfl))
          · rename_i herr
            split at h
            · rename_i hok
              cases h
              refine .move hi (hp ▸ .succeed hd hcall ?_) rfl (.inr (.inl rfl))
              obtain ⟨rep, ok, err⟩ := reply
              cases hok
              cases Bool.eq_false_iff.mpr herr
              exact hreply
            · cases h
              exact .move hi (hp ▸ .fail hd hcall hdone) rfl (.inr (.inl rfl))
        · rename_i hrefused
          cases h
          refine .move hi (hp ▸ .fail hd hcall ?_) rfl (.inr (.inl rfl))
          rw [hrefused]
          trivial
        · cases h
      · cases h
    · cases h
  | drop i =>
    simp only [step, drop] at h
    split at h
    · rename_i r hi
      split at h
      · rename_i hp
        cases h
        exact .move hi (hp ▸ .drop) rfl (.inl rfl)
      · cases h
    · cases h
  | close => cases h; exact .close rfl

end Step

end LazyClient

end CollabIde
