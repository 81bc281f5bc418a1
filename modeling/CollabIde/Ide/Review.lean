import CollabIde.Ide.Accept
import CollabIde.Ide.Document
import CollabIde.Ide.Pages

/-!
# Proposals and the clicks on them

The editor with the list of pending proposals that each page shows to its user. A client suggests a
change (`add`); an editor accepts or rejects one of the list, and the page changes its document and
its list before the server hears of it (`IDE.jsx`). What a page makes of a set of edits is a
parameter, `view`.
-/

namespace CollabIde

variable {E : Type}

/-- The action and the proposal's ID of an accept or a reject that the server reads. -/
def Frame.decision : Frame E → Option (String × String)
  | .text (some m) _ =>
    if m.type = "proposal" ∧ (m.action = "accept" ∨ m.action = "reject") then
      m.proposal.map (m.action, ·)
    else none
  | _ => none

def Text.isProposal : Text E → Bool
  | .proposal _ _ => true
  | _ => false

/-- The server or a page reads a proposal. -/
def Frame.proposes : Frame E → Bool
  | .text m t => m.any (·.type = "proposal") || t.any Text.isProposal
  | .binary _ => false

def Ide.Action.proposes : Ide.Action E → Bool
  | .send _ f => f.proposes
  | _ => false

/-- A proposal that a client suggests. -/
def addFrame (m : IncomingMsg) : Frame E :=
  .text (some { m with type := "proposal", action := "add" }) (some .other)

def decisionFrame (action : String) (p : Proposal) : Frame E :=
  .text (some { type := "proposal", action := action, proposal := some p.id })
    (some (.proposal action p))

namespace Tab

variable (tab : Tab E)

def sendJSON (f : Frame E) : List (Frame E) := if tab.connected then [f] else []

def removeProposal (id : String) : Tab E :=
  { tab with proposals := tab.proposals.filter (·.id ≠ id) }

/-- `handleRejectProposal`. -/
def reject (id : String) : Tab E × List (Frame E) :=
  (tab.removeProposal id, tab.sendJSON (decisionFrame "reject" { id := id }))

/-- The end of `handleAcceptProposal`, after the transaction with the edits `es`. -/
def accept [DecidableEq E] (p : Proposal) (es : Finset E) : Tab E × List (Frame E) :=
  ((tab.edit es).1.removeProposal p.id, (tab.edit es).2 ++ tab.sendJSON (decisionFrame "accept" p))

end Tab

def Decision.isAccept : Decision → Bool
  | .accept _ => true
  | .reject _ => false

def Cmd.proposal? {U : Type} : Cmd U → Option ProposalCmd
  | .proposal c => some c
  | _ => none

/-- The accept or reject that a command applies. -/
def Cmd.decision {U : Type} : Cmd U → Option ProposalCmd
  | .proposal c => if c.action = "accept" ∨ c.action = "reject" then some c else none
  | _ => none

/-- The transaction that puts the replacement of a proposal into a page's document. -/
structure Insertion (E : Type) where
  code : String
  id : String
  edits : Finset E
  deriving DecidableEq

/-- The editor, the insertions that its pages made, and the decisions that the server applied. -/
structure Review (E : Type) where
  ide : Ide E
  inserted : List (Insertion E)
  decided : List ProposalCmd

namespace Review

inductive Action (E : Type) where
  /-- Everything but a frame about a proposal. -/
  | ide (x : Ide.Action E)
  | add (k : ℕ) (m : IncomingMsg)
  | accept (k : ℕ) (p : Proposal) (es : Finset E)
  | reject (k : ℕ) (p : Proposal)

/-- The server has started. -/
def initial : Review E := ⟨Ide.initial, [], []⟩

variable [DecidableEq E] [Edit E] (cfg : Config E) (view : Finset E → YDoc) (s : Review E)

/-- `handleAcceptProposal` of a page that shows `p`. -/
def clicked (tab : Tab E) (p : Proposal) : Clicked :=
  handleAcceptProposal (view tab.doc) tab.proposals p

/-- The page of connection `k` shows the proposal with its buttons. -/
def Shows (k : ℕ) (p : Proposal) : Prop :=
  (s.ide.conn k).tab.role = "editor" ∧ p ∈ (s.ide.conn k).tab.proposals

instance (k : ℕ) (p : Proposal) : Decidable (s.Shows k p) := inferInstanceAs (Decidable (_ ∧ _))

/-- A click on Accept: what cannot be applied is rejected. -/
def accept (k : ℕ) (p : Proposal) (es : Finset E) : Option (Review E) :=
  let c := s.ide.conn k
  if s.Shows k p then
    match (clicked view c.tab p).sent with
    | .reject _ => some { s with ide := s.ide.setTab k (c.tab.reject p.id) }
    | .accept _ =>
      if (view (c.tab.doc ∪ es)).text = (clicked view c.tab p).text then
        some { s with
          ide := s.ide.setTab k (c.tab.accept p es)
          inserted := s.inserted ++ [⟨c.client.code, p.id, es⟩] }
      else none
  else none

def step : Action E → Option (Review E)
  | .ide x =>
    if x.proposes then none
    else
      (s.ide.step cfg x).map fun ide => { s with
        ide := ide, decided := s.decided ++ ((s.ide.command x).bind Cmd.decision).toList }
  | .add k m => (s.ide.send k (addFrame m)).map fun ide => { s with ide := ide }
  | .accept k p es => s.accept view k p es
  | .reject k p =>
    if s.Shows k p then
      some { s with ide := s.ide.setTab k ((s.ide.conn k).tab.reject p.id) }
    else none

/-- The editor with its proposals as a machine. -/
def machine : Machine (Review E) (Action E) where
  init s := s = initial
  step := step cfg view

/-- A click on Accept changes the document. -/
def Inserts (k : ℕ) (p : Proposal) : Prop :=
  (clicked view (s.ide.conn k).tab p).sent.isAccept = true

instance (k : ℕ) (p : Proposal) : Decidable (s.Inserts view k p) :=
  inferInstanceAs (Decidable (_ = _))

/-- Each action with its guard and its result. -/
inductive Stepped : Action E → Review E → Prop
  | ide {x : Ide.Action E} {ide : Ide E} : x.proposes = false → s.ide.step cfg x = some ide →
    Stepped (.ide x) { s with
      ide := ide, decided := s.decided ++ ((s.ide.command x).bind Cmd.decision).toList }
  | add {k : ℕ} {m : IncomingMsg} : (s.ide.conn k).tab.connected = true →
    Stepped (.add k m) { s with
      ide := s.ide.setTab k ((s.ide.conn k).tab, [addFrame m]) }
  | accept {k : ℕ} {p : Proposal} {es : Finset E} : s.Shows k p → s.Inserts view k p →
    Stepped (.accept k p es) { s with
      ide := s.ide.setTab k ((s.ide.conn k).tab.accept p es)
      inserted := s.inserted ++ [⟨(s.ide.conn k).client.code, p.id, es⟩] }
  | discard {k : ℕ} {p : Proposal} {es : Finset E} : s.Shows k p → ¬ s.Inserts view k p →
    Stepped (.accept k p es) { s with
      ide := s.ide.setTab k ((s.ide.conn k).tab.reject p.id) }
  | reject {k : ℕ} {p : Proposal} : s.Shows k p →
    Stepped (.reject k p) { s with
      ide := s.ide.setTab k ((s.ide.conn k).tab.reject p.id) }

variable {cfg view s}

theorem stepped {s' : Review E} {x : Action E} (h : s.step cfg view x = some s') :
    Stepped cfg view s x s' := by
  cases x with
  | ide x =>
    simp only [step] at h
    split at h
    · cases h
    · rename_i hx
      obtain ⟨ide, hide, rfl⟩ := Option.map_eq_some_iff.mp h
      exact .ide (by simpa using hx) hide
  | add k m =>
    obtain ⟨ide, hide, rfl⟩ := Option.map_eq_some_iff.mp h
    simp only [Ide.send] at hide
    split at hide
    · rename_i hk
      cases hide
      exact .add hk.1
    · cases hide
  | accept k p es =>
    simp only [step, accept] at h
    split at h
    · rename_i hshow
      cases hsent : (clicked view (s.ide.conn k).tab p).sent with
      | reject id =>
        rw [hsent] at h
        cases h
        refine .discard hshow fun hins => ?_
        rw [Inserts, hsent] at hins
        cases hins
      | accept q =>
        rw [hsent] at h
        dsimp only at h
        split at h
        · cases h
          exact .accept hshow (by rw [Inserts, hsent]; rfl)
        · cases h
    · cases h
  | reject k p =>
    simp only [step] at h
    split at h
    · cases h
      exact .reject ‹_›
    · cases h

end Review

end CollabIde
