import Mathlib.Data.List.Perm.Basic
import CollabIde.Lib.Run
import CollabIde.Net.Transport

/-!
# Calls over one connection

`DemuxClnt` sends the calls of its callers over one connection and gives each reply to the caller
with the reply's tag; `DemuxSrv` serves every request in a goroutine of its own. A caller, the
client's reader, the server's reader and the goroutines interleave between any two accesses to
what they share: the counter of the tags, the map of the calls, the connection. The connection can
break off at any time, each direction after some of its messages (`Transport.readCalls_of_prefix`).
-/

namespace CollabIde

namespace Demux

/-- What `SendReceive` returns. -/
structure Reply (B : Type) where
  rep : Option B
  ok : Bool
  err : Bool

/-- Where a call of `SendReceive` is. -/
inductive CallPhase (B : Type) where
  /-- Before `tag`. -/
  | entered
  /-- Before `put`. -/
  | tagged
  /-- Before `WriteCall`. -/
  | enqueued
  /-- At the reply channel. -/
  | waiting
  | returned (r : Reply B)
  /-- `put` has returned an error. -/
  | refused

structure Call (B : Type) where
  req : B
  tag : UInt32
  phase : CallPhase B

/-- A goroutine of the server: `result` is what `ServeRequest` has returned. -/
structure Job (B : Type) where
  tag : UInt32
  req : B
  result : Option (B × Bool)
  written : Bool

/-- Where the client's reader is. -/
inductive ClntReader (B : Type) where
  /-- At `ReadCall`. -/
  | reading
  /-- At the reply channel of a call; then it reads on, or it fails the calls of `rest`. -/
  | sending (k : ℕ) (r : Reply B) (rest : Option (List UInt32))
  /-- Before `close`. -/
  | closing
  /-- Before `outstanding`. -/
  | listing
  /-- The calls that are still to be failed. -/
  | failing (ts : List UInt32)
  /-- `log.Fatalf` has stopped the program. -/
  | fatal

/-- Where the server's reader is. -/
inductive SrvReader where
  /-- Before the first message. -/
  | accepting
  | reading
  | ended
  | fatal
  deriving DecidableEq

end Demux

/-- A client and the server's side of its connection. -/
structure Demux (B : Type) where
  calls : List (Demux.Call B)
  nextTag : UInt32
  closed : Bool
  callMap : List (UInt32 × ℕ)
  clnt : Demux.ClntReader B
  requests : List (Msg B)
  replies : List (Msg B)
  broken : Bool
  srv : Demux.SrvReader
  jobs : List (Demux.Job B)

namespace Demux

variable {B : Type}

/-- `callMap.put`. -/
def putCall (cm : List (UInt32 × ℕ)) (t : UInt32) (k : ℕ) : List (UInt32 × ℕ) :=
  (t, k) :: cm.filter fun e => e.1 ≠ t

/-- `callMap.remove`. -/
def removeCall (cm : List (UInt32 × ℕ)) (t : UInt32) : Option (ℕ × List (UInt32 × ℕ)) :=
  (cm.find? fun e => e.1 = t).map fun e => (e.2, cm.filter fun e => e.1 ≠ t)

/-- The failure of a call that was outstanding when the connection ended. -/
def failure : Reply B := ⟨none, false, true⟩

inductive Action (B : Type) where
  /-- A goroutine calls `SendReceive`. -/
  | call (req : B)
  | tag (k : ℕ)
  | put (k : ℕ)
  | write (k : ℕ)
  /-- `NewDemuxSrv` reads the first message. -/
  | accept
  | readRequest
  | serve (i : ℕ) (rep : B) (ok : Bool)
  | answer (i : ℕ)
  | endServer
  | readReply
  | deliver
  | readErr
  | closeMap
  | list (ts : List UInt32)
  | failNext
  /-- The connection breaks off: what is behind the first messages is lost. -/
  | cut (requests replies : ℕ)
  /-- `Close`, after the connection has been closed. -/
  | close

/-- `NewDemuxClnt` has written the first message. -/
def initial (init : B) : Demux B where
  calls := []
  nextTag := 1
  closed := false
  callMap := []
  clnt := .reading
  requests := [⟨0, init, true⟩]
  replies := []
  broken := false
  srv := .accepting
  jobs := []

variable (s : Demux B)

def setCall (k : ℕ) (c : Call B) : Demux B := { s with calls := s.calls.set k c }

def setJob (i : ℕ) (j : Job B) : Demux B := { s with jobs := s.jobs.set i j }

/-- A message that is written after the connection has broken off is lost. -/
def write (l : List (Msg B)) (m : Msg B) : List (Msg B) := if s.broken then l else l ++ [m]

/-- `reply`: the tag is removed, and the reply goes to its channel. -/
def reply (t : UInt32) (r : Reply B) (rest : Option (List UInt32)) : Demux B :=
  match removeCall s.callMap t with
  | some (k, cm) => { s with callMap := cm, clnt := .sending k r rest }
  | none => { s with clnt := .fatal }

def tag (k : ℕ) : Option (Demux B) :=
  match s.calls[k]? with
  | some ⟨req, _, .entered⟩ =>
    some { s.setCall k ⟨req, s.nextTag, .tagged⟩ with nextTag := s.nextTag + 1 }
  | _ => none

def put (k : ℕ) : Option (Demux B) :=
  match s.calls[k]? with
  | some ⟨req, t, .tagged⟩ =>
    if s.closed then some (s.setCall k ⟨req, t, .refused⟩)
    else some { s.setCall k ⟨req, t, .enqueued⟩ with callMap := putCall s.callMap t k }
  | _ => none

def writeCall (k : ℕ) : Option (Demux B) :=
  match s.calls[k]? with
  | some ⟨req, t, .enqueued⟩ =>
    some { s.setCall k ⟨req, t, .waiting⟩ with requests := s.write s.requests ⟨t, req, true⟩ }
  | _ => none

def accept : Option (Demux B) :=
  match s.srv, s.requests with
  | .accepting, _ :: rest => some { s with srv := .reading, requests := rest }
  | _, _ => none

def readRequest : Option (Demux B) :=
  match s.srv, s.requests with
  | .reading, m :: rest =>
    some { s with requests := rest, jobs := s.jobs ++ [⟨m.tag, m.data, none, false⟩] }
  | _, _ => none

def serve (i : ℕ) (rep : B) (ok : Bool) : Option (Demux B) :=
  match s.jobs[i]? with
  | some ⟨t, req, none, false⟩ => some (s.setJob i ⟨t, req, some (rep, ok), false⟩)
  | _ => none

def answer (i : ℕ) : Option (Demux B) :=
  match s.jobs[i]? with
  | some ⟨t, req, some (rep, ok), false⟩ =>
    some { s.setJob i ⟨t, req, some (rep, ok), true⟩ with
      replies := s.write s.replies ⟨t, rep, ok⟩ }
  | _ => none

/-- `ReadCall` fails at the server: without a first message the program stops. -/
def endServer : Option (Demux B) :=
  if s.broken ∧ s.requests = [] then
    match s.srv with
    | .accepting => some { s with srv := .fatal }
    | .reading => some { s with srv := .ended }
    | _ => none
  else none

def readReply : Option (Demux B) :=
  match s.clnt, s.replies with
  | .reading, m :: rest =>
    some ({ s with replies := rest }.reply m.tag ⟨some m.data, m.ok, false⟩ none)
  | _, _ => none

def deliver : Option (Demux B) :=
  match s.clnt with
  | .sending k r rest =>
    match s.calls[k]? with
    | some ⟨req, t, .waiting⟩ =>
      some { s.setCall k ⟨req, t, .returned r⟩ with clnt := rest.elim .reading .failing }
    | _ => none
  | _ => none

def readErr : Option (Demux B) :=
  match s.clnt with
  | .reading => if s.broken ∧ s.replies = [] then some { s with clnt := .closing } else none
  | _ => none

def closeMap : Option (Demux B) :=
  match s.clnt with
  | .closing => some { s with closed := true, clnt := .listing }
  | _ => none

/-- `outstanding` gives the tags in any order. -/
def list (ts : List UInt32) : Option (Demux B) :=
  match s.clnt with
  | .listing => if ts.Perm (s.callMap.map Prod.fst) then some { s with clnt := .failing ts } else none
  | _ => none

def failNext : Option (Demux B) :=
  match s.clnt with
  | .failing (t :: ts) => some (s.reply t failure (some ts))
  | _ => none

def step : Action B → Option (Demux B)
  | .call req => some { s with calls := s.calls ++ [⟨req, 0, .entered⟩] }
  | .tag k => s.tag k
  | .put k => s.put k
  | .write k => s.writeCall k
  | .accept => s.accept
  | .readRequest => s.readRequest
  | .serve i rep ok => s.serve i rep ok
  | .answer i => s.answer i
  | .endServer => s.endServer
  | .readReply => s.readReply
  | .deliver => s.deliver
  | .readErr => s.readErr
  | .closeMap => s.closeMap
  | .list ts => s.list ts
  | .failNext => s.failNext
  | .cut m n => some { s with
      requests := s.requests.take m, replies := s.replies.take n, broken := true }
  | .close => if s.broken then some { s with closed := true } else none

/-- Each action with its guard and its result. -/
inductive Stepped : Action B → Demux B → Prop
  | call {req : B} : Stepped (.call req) { s with calls := s.calls ++ [⟨req, 0, .entered⟩] }
  | tag {k : ℕ} {req : B} {t : UInt32} : s.calls[k]? = some ⟨req, t, .entered⟩ →
    Stepped (.tag k) { s.setCall k ⟨req, s.nextTag, .tagged⟩ with nextTag := s.nextTag + 1 }
  | refuse {k : ℕ} {req : B} {t : UInt32} : s.calls[k]? = some ⟨req, t, .tagged⟩ →
    s.closed = true → Stepped (.put k) (s.setCall k ⟨req, t, .refused⟩)
  | put {k : ℕ} {req : B} {t : UInt32} : s.calls[k]? = some ⟨req, t, .tagged⟩ →
    s.closed = false → Stepped (.put k)
      { s.setCall k ⟨req, t, .enqueued⟩ with callMap := putCall s.callMap t k }
  | write {k : ℕ} {req : B} {t : UInt32} : s.calls[k]? = some ⟨req, t, .enqueued⟩ →
    Stepped (.write k)
      { s.setCall k ⟨req, t, .waiting⟩ with requests := s.write s.requests ⟨t, req, true⟩ }
  | accept {m : Msg B} {rest : List (Msg B)} : s.srv = .accepting → s.requests = m :: rest →
    Stepped .accept { s with srv := .reading, requests := rest }
  | readRequest {m : Msg B} {rest : List (Msg B)} : s.srv = .reading → s.requests = m :: rest →
    Stepped .readRequest
      { s with requests := rest, jobs := s.jobs ++ [⟨m.tag, m.data, none, false⟩] }
  | serve {i : ℕ} {rep : B} {ok : Bool} {t : UInt32} {req : B} :
    s.jobs[i]? = some ⟨t, req, none, false⟩ →
    Stepped (.serve i rep ok) (s.setJob i ⟨t, req, some (rep, ok), false⟩)
  | answer {i : ℕ} {rep : B} {ok : Bool} {t : UInt32} {req : B} :
    s.jobs[i]? = some ⟨t, req, some (rep, ok), false⟩ →
    Stepped (.answer i) { s.setJob i ⟨t, req, some (rep, ok), true⟩ with
      replies := s.write s.replies ⟨t, rep, ok⟩ }
  | die : s.broken = true → s.requests = [] → s.srv = .accepting →
    Stepped .endServer { s with srv := .fatal }
  | endServer : s.broken = true → s.requests = [] → s.srv = .reading →
    Stepped .endServer { s with srv := .ended }
  | readReply {m : Msg B} {rest : List (Msg B)} : s.clnt = .reading → s.replies = m :: rest →
    Stepped .readReply
      ({ s with replies := rest }.reply m.tag ⟨some m.data, m.ok, false⟩ none)
  | deliver {k : ℕ} {r : Reply B} {rest : Option (List UInt32)} {req : B} {t : UInt32} :
    s.clnt = .sending k r rest → s.calls[k]? = some ⟨req, t, .waiting⟩ →
    Stepped .deliver
      { s.setCall k ⟨req, t, .returned r⟩ with clnt := rest.elim .reading .failing }
  | readErr : s.clnt = .reading → s.broken = true → s.replies = [] →
    Stepped .readErr { s with clnt := .closing }
  | closeMap : s.clnt = .closing → Stepped .closeMap { s with closed := true, clnt := .listing }
  | list {ts : List UInt32} : s.clnt = .listing → ts.Perm (s.callMap.map Prod.fst) →
    Stepped (.list ts) { s with clnt := .failing ts }
  | failNext {t : UInt32} {ts : List UInt32} : s.clnt = .failing (t :: ts) →
    Stepped .failNext (s.reply t failure (some ts))
  | cut {m n : ℕ} : Stepped (.cut m n)
      { s with requests := s.requests.take m, replies := s.replies.take n, broken := true }
  | close : s.broken = true → Stepped .close { s with closed := true }

variable {s} in
theorem stepped {s' : Demux B} {x : Action B} (h : s.step x = some s') : Stepped s x s' := by
  cases x with
  | call req => cases h; exact .call
  | tag k =>
    simp only [step, tag] at h
    split at h
    · cases h; exact .tag ‹_›
    · cases h
  | put k =>
    simp only [step, put] at h
    split at h
    · split at h
      · cases h; exact .refuse ‹_› ‹_›
      · cases h; exact .put ‹_› (Bool.eq_false_iff.mpr ‹_›)
    · cases h
  | write k =>
    simp only [step, writeCall] at h
    split at h
    · cases h; exact .write ‹_›
    · cases h
  | accept =>
    simp only [step, accept] at h
    split at h
    · cases h; exact .accept ‹_› ‹_›
    · cases h
  | readRequest =>
    simp only [step, readRequest] at h
    split at h
    · cases h; exact .readRequest ‹_› ‹_›
    · cases h
  | serve i rep ok =>
    simp only [step, serve] at h
    split at h
    · cases h; exact .serve ‹_›
    · cases h
  | answer i =>
    simp only [step, answer] at h
    split at h
    · cases h; exact .answer ‹_›
    · cases h
  | endServer =>
    simp only [step, endServer] at h
    split at h
    · rename_i hend
      split at h
      · cases h; exact .die hend.1 hend.2 ‹_›
      · cases h; exact .endServer hend.1 hend.2 ‹_›
      · cases h
    · cases h
  | readReply =>
    simp only [step, readReply] at h
    split at h
    · cases h; exact .readReply ‹_› ‹_›
    · cases h
  | deliver =>
    simp only [step, deliver] at h
    split at h
    · split at h
      · cases h; exact .deliver ‹_› ‹_›
      · cases h
    · cases h
  | readErr =>
    simp only [step, readErr] at h
    split at h
    · split at h
      · rename_i hend
        cases h; exact .readErr ‹_› hend.1 hend.2
      · cases h
    · cases h
  | closeMap =>
    simp only [step, closeMap] at h
    split at h
    · cases h; exact .closeMap ‹_›
    · cases h
  | list ts =>
    simp only [step, list] at h
    split at h
    · split at h
      · cases h; exact .list ‹_› ‹_›
      · cases h
    · cases h
  | failNext =>
    simp only [step, failNext] at h
    split at h
    · cases h; exact .failNext ‹_›
    · cases h
  | cut m n => cases h; exact .cut
  | close =>
    simp only [step] at h
    split at h
    · cases h; exact .close ‹_›
    · cases h

/-- The client with its connection as a machine. -/
def machine (init : B) : Machine (Demux B) (Action B) where
  init s := s = initial init
  step := step

end Demux

end CollabIde
