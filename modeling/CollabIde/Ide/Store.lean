import CollabIde.Ide.Server
import CollabIde.Lib.NilMap

/-!
# The store of the sessions, and its snapshots

`CollabServer` with the slices and maps that it has in memory, where `Ide.Server` has what they
stand for: a slice may be nil or empty, a map may be nil, and an assignment to an entry of a nil map
stops the program. `Snapshot` and `Restore` go through gob, which omits zero values, so that a
document without bytes comes back as nil.

`CollabServer.Refines` connects the store with the sessions; every command keeps it, and so does a
recovery from a snapshot. So a recovery at any point changes nothing but nil and empty documents.
-/

namespace CollabIde.Store

/-- `[]byte`: nil, or its bytes. -/
abbrev Bytes : Type := Option (List UInt8)

structure SessionState where
  doc : Bytes
  proposals : NilMap String Proposal
  roles : NilMap String String
  creator : String

/-- All sessions by their codes. -/
structure CollabServer where
  sessions : NilMap String SessionState

def newCollabServer : CollabServer := ⟨.make⟩

namespace CollabServer

variable (cs : CollabServer)

/-- The session and the store that has it. -/
def getOrCreate (code : String) : Option (CollabServer × SessionState) :=
  match cs.sessions.get code with
  | some s => some (cs, s)
  | none =>
    let s : SessionState := { doc := some [], proposals := .make, roles := .make, creator := "" }
    (cs.sessions.put code s).map fun sessions => (⟨sessions⟩, s)

/-- `getOrCreate`, and what is assigned through the pointer. -/
def onSession (code : String) (edit : SessionState → Option SessionState) : Option CollabServer := do
  let (cs, s) ← cs.getOrCreate code
  let s ← edit s
  let sessions ← cs.sessions.put code s
  some ⟨sessions⟩

/-- `DoOp`; `none` is an assignment to an entry of a nil map. -/
def doOp : Cmd Bytes → Option CollabServer
  | .crdtUpdate c => cs.onSession c.sessionCode fun s => some { s with doc := c.update }
  | .proposal c => cs.onSession c.sessionCode fun s =>
    match c.action with
    | "add" => (s.proposals.put c.id {
        id := c.id, author := c.author, replacement := c.replacement
        originalText := c.originalText, relStart := c.relStart, relEnd := c.relEnd
        startLine := c.startLine, endLine := c.endLine }).map fun m => { s with proposals := m }
    | "accept" | "reject" => some { s with proposals := s.proposals.delete c.id }
    | _ => some s
  | .roleChange c => cs.onSession c.sessionCode fun s =>
    (s.roles.put c.userID c.role).map fun m => { s with roles := m }
  | .session c =>
    match c.action with
    | "create" => cs.onSession c.code fun s =>
      (s.roles.put c.userID "editor").map fun m => { s with creator := c.userID, roles := m }
    | "join" => cs.onSession c.code fun s =>
      if (s.roles.get c.userID).isSome then some s
      else (s.roles.put c.userID "viewer").map fun m => { s with roles := m }
    | _ => some cs

def run (cmds : List (Cmd Bytes)) : Option CollabServer := cmds.foldlM doOp cs

end CollabServer

/-! ## Snapshots -/

/-- A proposal on the wire: `none` is a field that is omitted. -/
structure SentProposal where
  id : Option String
  author : Option String
  replacement : Option String
  originalText : Option String
  relStart : Option String
  relEnd : Option String
  startLine : Option Int
  endLine : Option Int

def sendProposal (p : Proposal) : SentProposal where
  id := Gob.sendField "" p.id
  author := Gob.sendField "" p.author
  replacement := Gob.sendField "" p.replacement
  originalText := Gob.sendField "" p.originalText
  relStart := Gob.sendField "" p.relStart
  relEnd := Gob.sendField "" p.relEnd
  startLine := Gob.sendField 0 p.startLine
  endLine := Gob.sendField 0 p.endLine

def receiveProposal (p : SentProposal) : Proposal where
  id := p.id.getD ""
  author := p.author.getD ""
  replacement := p.replacement.getD ""
  originalText := p.originalText.getD ""
  relStart := p.relStart.getD ""
  relEnd := p.relEnd.getD ""
  startLine := p.startLine.getD 0
  endLine := p.endLine.getD 0

/-- A session on the wire. -/
structure SentSession where
  doc : Option (List UInt8)
  proposals : Option (String → Option SentProposal)
  roles : Option (String → Option String)
  creator : Option String

def sendSession (s : SessionState) : SentSession where
  doc := Gob.sendSlice s.doc
  proposals := s.proposals.send sendProposal
  roles := s.roles.send id
  creator := Gob.sendField "" s.creator

def receiveSession (s : SentSession) : SessionState where
  doc := s.doc
  proposals := .receive receiveProposal s.proposals
  roles := .receive id s.roles
  creator := s.creator.getD ""

/-- What `Snapshot` encodes: the sessions are no field, and are sent in any case. -/
abbrev SentSessions : Type := String → Option SentSession

def CollabServer.snapshot (cs : CollabServer) : SentSessions := fun code =>
  (cs.sessions.get code).map sendSession

/-- `none` is data that cannot be decoded. -/
def CollabServer.restore (cs : CollabServer) : Option SentSessions → CollabServer
  | none => cs
  | some sent => ⟨.entries fun code => (sent code).map receiveSession⟩

/-- A store that starts from the snapshot of another. -/
def CollabServer.recovered (cs : CollabServer) : CollabServer :=
  newCollabServer.restore (some cs.snapshot)

/-! ## What the store stands for -/

/-- The session with its maps made; nil stands for an empty document. -/
structure SessionState.Refines (s : SessionState) (st : CollabIde.SessionState (List UInt8)) :
    Prop where
  doc : s.doc.getD [] = st.doc.getD []
  proposals_made : s.proposals.Made
  proposals : s.proposals.get = st.proposals
  roles_made : s.roles.Made
  roles : s.roles.get = st.roles
  creator : s.creator = st.creator

/-- The store has been made, and has the same sessions. -/
structure CollabServer.Refines (cs : CollabServer) (ss : Sessions (List UInt8)) : Prop where
  made : cs.sessions.Made
  sessions : ∀ code, Option.Rel SessionState.Refines (cs.sessions.get code) (ss code)

/-- The command with the bytes of its update. -/
def bytes : Cmd Bytes → Cmd (List UInt8)
  | .crdtUpdate c => .crdtUpdate ⟨c.sessionCode, c.update.getD []⟩
  | .proposal c => .proposal c
  | .roleChange c => .roleChange c
  | .session c => .session c

namespace CollabServer

variable {cs : CollabServer} {ss : Sessions (List UInt8)}

theorem newCollabServer_refines : newCollabServer.Refines fun _ => none :=
  ⟨NilMap.made_make, fun _ => .none⟩

/-- The session that there is or that is created. -/
theorem Refines.getOrCreate (h : cs.Refines ss) (code : String) : ∃ cs' s,
    cs.getOrCreate code = some (cs', s) ∧ s.Refines (ss.getOrCreate code) ∧
      cs'.sessions.Made ∧ ∀ code' ≠ code, cs'.sessions.get code' = cs.sessions.get code' := by
  have hrel := h.sessions code
  unfold CollabServer.getOrCreate Sessions.getOrCreate
  generalize hget : cs.sessions.get code = o at hrel
  generalize ss code = o' at hrel
  cases hrel with
  | some hs => exact ⟨cs, _, rfl, hs, h.made, fun _ _ => rfl⟩
  | none =>
    obtain ⟨m, hput, hmade, hm⟩ := h.made.put code
      { doc := some [], proposals := .make, roles := .make, creator := "" }
    dsimp only
    rw [hput]
    refine ⟨⟨m⟩, _, rfl, ⟨rfl, NilMap.made_make, rfl, NilMap.made_make, rfl, rfl⟩, hmade,
      fun code' hne => ?_⟩
    rw [hm, Function.update_of_ne hne]

/-- An assignment through the pointer is one to the session. -/
theorem Refines.onSession (h : cs.Refines ss) {code : String}
    {edit : SessionState → Option SessionState} {st : CollabIde.SessionState (List UInt8)}
    (hedit : ∀ s, s.Refines (ss.getOrCreate code) → ∃ s', edit s = some s' ∧ s'.Refines st) :
    ∃ cs', cs.onSession code edit = some cs' ∧ cs'.Refines (ss.set code st) := by
  obtain ⟨cs₁, s, hget, hs, hmade, hother⟩ := h.getOrCreate code
  obtain ⟨s', he, hs'⟩ := hedit s hs
  obtain ⟨m, hput, hmade', hm⟩ := hmade.put code s'
  refine ⟨⟨m⟩, ?_, hmade', fun code' => ?_⟩
  · simp only [CollabServer.onSession, hget, he, hput, Option.bind_eq_bind, Option.bind_some]
  · rw [hm, Sessions.set]
    by_cases hc : code' = code
    · rw [hc, Function.update_self, Function.update_self]
      exact .some hs'
    · rw [Function.update_of_ne hc, Function.update_of_ne hc, hother code' hc]
      exact h.sessions code'

/-- No command writes to a nil map, and each does to the store what it does to the sessions. -/
theorem Refines.doOp (h : cs.Refines ss) (cmd : Cmd Bytes) :
    ∃ cs', cs.doOp cmd = some cs' ∧ cs'.Refines (ss.doOp (bytes cmd)) := by
  cases cmd with
  | crdtUpdate c =>
    unfold CollabServer.doOp bytes Sessions.doOp
    exact h.onSession fun s hs => ⟨_, rfl, { hs with doc := rfl }⟩
  | proposal c =>
    obtain ⟨code, id, author, replacement, originalText, relStart, relEnd, startLine, endLine,
      action⟩ := c
    unfold CollabServer.doOp bytes Sessions.doOp Sessions.doProposal
    dsimp only
    refine h.onSession fun s hs => ?_
    split
    · obtain ⟨m, hput, hmade, hm⟩ := hs.proposals_made.put id
        ⟨id, author, replacement, originalText, relStart, relEnd, startLine, endLine⟩
      rw [hput]
      exact ⟨_, rfl, { hs with
        proposals_made := hmade
        proposals := hm.trans (congrArg (Function.update · id _) hs.proposals) }⟩
    · obtain ⟨hmade, hm⟩ := hs.proposals_made.delete id
      exact ⟨_, rfl, { hs with
        proposals_made := hmade
        proposals := hm.trans (congrArg (Function.update · id _) hs.proposals) }⟩
    · obtain ⟨hmade, hm⟩ := hs.proposals_made.delete id
      exact ⟨_, rfl, { hs with
        proposals_made := hmade
        proposals := hm.trans (congrArg (Function.update · id _) hs.proposals) }⟩
    · rename_i hadd haccept hreject
      refine ⟨s, rfl, ?_⟩
      simpa only [hadd, haccept, hreject] using hs
  | roleChange c =>
    unfold CollabServer.doOp bytes Sessions.doOp
    refine h.onSession fun s hs => ?_
    obtain ⟨m, hput, hmade, hm⟩ := hs.roles_made.put c.userID c.role
    rw [hput]
    exact ⟨_, rfl, { hs with roles_made := hmade, roles := hm.trans (by rw [hs.roles]) }⟩
  | session c =>
    obtain ⟨action, code, userID, role⟩ := c
    unfold CollabServer.doOp bytes Sessions.doOp Sessions.doSession
    dsimp only
    split
    · refine h.onSession fun s hs => ?_
      obtain ⟨m, hput, hmade, hm⟩ := hs.roles_made.put userID "editor"
      rw [hput]
      exact ⟨_, rfl, { hs with
        roles_made := hmade
        roles := hm.trans (by rw [hs.roles])
        creator := rfl }⟩
    · refine h.onSession fun s hs => ?_
      rw [← hs.roles]
      split
      · exact ⟨s, rfl, hs⟩
      · obtain ⟨m, hput, hmade, hm⟩ := hs.roles_made.put userID "viewer"
        rw [hput]
        exact ⟨_, rfl, { hs with roles_made := hmade, roles := hm }⟩
    · rename_i hcreate hjoin
      refine ⟨cs, rfl, ?_⟩
      simpa only [hcreate, hjoin] using h

/-- A whole run. -/
theorem Refines.run (h : cs.Refines ss) (cmds : List (Cmd Bytes)) :
    ∃ cs', cs.run cmds = some cs' ∧ cs'.Refines ((cmds.map bytes).foldl Sessions.doOp ss) := by
  induction cmds generalizing cs ss with
  | nil => exact ⟨cs, rfl, h⟩
  | cons cmd cmds ih =>
    obtain ⟨cs₁, h₁, hr⟩ := h.doOp cmd
    obtain ⟨cs', hrun, hr'⟩ := ih hr
    refine ⟨cs', ?_, hr'⟩
    rw [CollabServer.run, List.foldlM_cons, h₁]
    exact hrun

/-! ## Recovery -/

theorem receiveProposal_sendProposal (p : Proposal) : receiveProposal (sendProposal p) = p := by
  simp only [receiveProposal, sendProposal, Gob.getD_sendField]

/-- Only a document without bytes may come back in another form. -/
theorem receiveSession_sendSession (s : SessionState) :
    receiveSession (sendSession s) = { s with doc := Gob.sendSlice s.doc } := by
  have hp : NilMap.receive receiveProposal (s.proposals.send sendProposal) = s.proposals :=
    NilMap.receive_send receiveProposal_sendProposal
  have hr : NilMap.receive id (s.roles.send id) = s.roles := NilMap.receive_send fun _ => rfl
  simp only [receiveSession, sendSession, hp, hr, Gob.getD_sendField]

/-- The snapshot restores what the store stands for. -/
theorem Refines.recovered (h : cs.Refines ss) : cs.recovered.Refines ss := by
  refine ⟨⟨_, rfl⟩, fun code => ?_⟩
  have hrel := h.sessions code
  change Option.Rel SessionState.Refines
    (((cs.sessions.get code).map sendSession).map receiveSession) (ss code)
  generalize cs.sessions.get code = o at hrel
  generalize ss code = o' at hrel
  cases hrel with
  | none => exact .none
  | some hs =>
    refine .some ?_
    rw [receiveSession_sendSession]
    exact { hs with doc := (Gob.sendSlice_getD _).trans hs.doc }

end CollabServer

/-- Equal up to nil and empty documents. -/
structure SessionState.Same (s t : SessionState) : Prop where
  doc : s.doc.getD [] = t.doc.getD []
  proposals : s.proposals = t.proposals
  roles : s.roles = t.roles
  creator : s.creator = t.creator

/-- The same sessions. -/
def CollabServer.Same (cs cs' : CollabServer) : Prop :=
  ∀ code, Option.Rel SessionState.Same (cs.sessions.get code) (cs'.sessions.get code)

namespace CollabServer

variable {cs cs' : CollabServer} {ss : Sessions (List UInt8)}

/-- Stores of the same sessions. -/
theorem Refines.same (h : cs.Refines ss) (h' : cs'.Refines ss) : cs.Same cs' := by
  intro code
  have hrel := h.sessions code
  have hrel' := h'.sessions code
  generalize cs.sessions.get code = o at hrel ⊢
  generalize cs'.sessions.get code = o' at hrel' ⊢
  generalize ss code = st at hrel hrel'
  cases hrel with
  | none =>
    cases hrel'
    exact .none
  | some hs =>
    cases hrel' with
    | some hs' =>
      refine .some ⟨hs.doc.trans hs'.doc.symm, ?_, ?_, hs.creator.trans hs'.creator.symm⟩
      · exact hs.proposals_made.eq_of_get hs'.proposals_made (hs.proposals.trans hs'.proposals.symm)
      · exact hs.roles_made.eq_of_get hs'.roles_made (hs.roles.trans hs'.roles.symm)

/-- What happens to a store. -/
inductive Event where
  | command (cmd : Cmd Bytes)
  /-- A snapshot is taken and restored. -/
  | recovery

/-- The commands among the events. -/
def Event.command? : Event → Option (Cmd Bytes)
  | command cmd => some cmd
  | recovery => none

def handle (cs : CollabServer) : Event → Option CollabServer
  | .command cmd => cs.doOp cmd
  | .recovery => some cs.recovered

/-- Recoveries do not show. -/
theorem Refines.handle (h : cs.Refines ss) (es : List Event) : ∃ cs', es.foldlM handle cs = some cs' ∧
    cs'.Refines (((es.filterMap Event.command?).map bytes).foldl Sessions.doOp ss) := by
  induction es generalizing cs ss with
  | nil => exact ⟨cs, rfl, h⟩
  | cons e es ih =>
    rw [List.foldlM_cons]
    cases e with
    | command cmd =>
      obtain ⟨cs₁, h₁, hr⟩ := h.doOp cmd
      obtain ⟨cs', hrun, hr'⟩ := ih hr
      refine ⟨cs', ?_, hr'⟩
      change (cs.doOp cmd).bind _ = _
      rw [h₁]
      exact hrun
    | recovery =>
      obtain ⟨cs', hrun, hr'⟩ := ih h.recovered
      exact ⟨cs', hrun, hr'⟩

/-- **Recovery equivalence**: commands after `Restore(Snapshot(s))` neither stop nor do anything
else than on `s`; and recoveries at any points of a run from the empty store give what the commands
alone give. -/
theorem recovery_equivalent :
    (∀ before cmds : List (Cmd Bytes), ∃ s t t', newCollabServer.run before = some s ∧
      s.run cmds = some t ∧ s.recovered.run cmds = some t' ∧ t.Same t') ∧
    ∀ es : List Event, ∃ t t', newCollabServer.run (es.filterMap Event.command?) = some t ∧
      es.foldlM handle newCollabServer = some t' ∧ t.Same t' := by
  constructor
  · intro before cmds
    obtain ⟨s, hs, hr⟩ := newCollabServer_refines.run before
    obtain ⟨t, ht, hrt⟩ := hr.run cmds
    obtain ⟨t', ht', hrt'⟩ := hr.recovered.run cmds
    exact ⟨s, t, t', hs, ht, ht', hrt.same hrt'⟩
  · intro es
    obtain ⟨t, ht, hrt⟩ := newCollabServer_refines.run (es.filterMap Event.command?)
    obtain ⟨t', ht', hrt'⟩ := newCollabServer_refines.handle es
    exact ⟨t, t', ht, ht', hrt.same hrt'⟩

/-- The document of a new session is empty, and nil after a recovery. -/
example : ((newCollabServer.run [.session ⟨"join", "c", "u", ""⟩]).map fun s =>
    ((s.sessions.get "c").map SessionState.doc, (s.recovered.sessions.get "c").map SessionState.doc)) =
      some (some (some []), some none) := rfl

end CollabServer

end CollabIde.Store
