import CollabIde.Ide.Document

/-!
# Only editors change documents

The frames of a user who is no editor of the session should have no effect on documents. What that
means is a second machine, in which the handler takes such a frame without what could reach the
document of anybody else (`editorsOnly`, `muted`): an update, an answer to a state vector, and a
state vector that asks in another's name. In every run the documents of the server and of the pages,
and with them all later frames, should be those of the same run of this machine (`SameDocuments`).

This holds of a run in which no frame of such a user is injected (`only_editors_change_documents`,
`NoInjection`): the role that the connection remembers is not "editor", none of its answers and of
its questions in another's name gets to a page, and no answer leaves its session. The server does
pass on any `sync_update`, from any user to any page, and an editor's page sends it on with its next
edit (`viewer_changes_document`).
-/

namespace CollabIde

variable {E : Type}

namespace Ide

section Condition

variable (s : Ide E) (k : ℕ)

/-- The user of the connection has the role in its session. -/
def IsEditor : Prop := s.sessions.getRole (s.conn k).client.code (s.conn k).client.id = "editor"

instance : Decidable (s.IsEditor k) := inferInstanceAs (Decidable (_ = _))

/-- The connections to which the server passes on a text frame. -/
def Receives (m : IncomingMsg) (j : ℕ) : Prop :=
  m.type ∈ ["run_result", "awareness", "sync_sv"] ∧
      s.Others (s.conn k).client.id (s.conn k).client.code j ∨
    m.type = "sync_update" ∧ m.toID ≠ "" ∧ s.IsUser m.toID j

instance (m : IncomingMsg) (j : ℕ) : Decidable (s.Receives k m j) :=
  inferInstanceAs (Decidable (_ ∨ _))

/-- A message for the connection will get to its page. -/
def Open (j : ℕ) : Prop :=
  (s.conn j).client.send.length < sendCap ∧ (s.conn j).tab.connected = true

instance (j : ℕ) : Decidable (s.Open j) := inferInstanceAs (Decidable (_ ∧ _))

/-- The answers to a state vector of this sender go to the connection itself. -/
def AsksForItself (sender : String) : Prop :=
  sender = (s.conn k).client.id ∧ s.Registered k

instance (sender : String) : Decidable (s.AsksForItself k sender) :=
  inferInstanceAs (Decidable (_ ∧ _))

/-- A text that brings no edit to a document of another client, and asks nobody to do so. -/
def Silent : Option (Text E) → Prop
  | some (.syncUpdate _) => False
  | some (.syncSv _ sender) => s.AsksForItself k sender
  | _ => True

instance : DecidablePred (s.Silent k) := fun t =>
  match t with
  | some (.syncUpdate _) => .isFalse id
  | some (.syncSv _ _) => inferInstanceAs (Decidable (_ ∧ _))
  | none | some (.redirect _) | some (.participants _) | some (.proposal _ _)
  | some (.roleChange _ _) | some .other => .isTrue trivial

/-- The frame is rejected, or what gets of it to a page is silent. -/
def Harmless : Frame E → Prop
  | .binary _ => (s.conn k).client.role ≠ "editor"
  | .text (some m) t => ∀ j < s.next, s.Receives k m j → s.Open j → s.Silent k t
  | .text none _ => True

instance : DecidablePred (s.Harmless k)
  | .binary _ => inferInstanceAs (Decidable (_ ≠ _))
  | .text (some _) _ => inferInstanceAs (Decidable (∀ j < _, _))
  | .text none _ => inferInstanceAs (Decidable True)

/-- An answer to a state vector gets to pages of the session only. -/
def AnswersWithin : Frame E → Prop
  | .text (some m) (some (.syncUpdate _)) => ∀ j < s.next, s.Receives k m j → s.Open j →
      (s.conn j).client.code = (s.conn k).client.code
  | _ => True

instance : DecidablePred (s.AnswersWithin k)
  | .text (some _) (some (.syncUpdate _)) => inferInstanceAs (Decidable (∀ j < _, _))
  | .binary _ | .text none _ | .text (some _) none | .text (some _) (some (.redirect _))
  | .text (some _) (some (.participants _)) | .text (some _) (some (.proposal _ _))
  | .text (some _) (some (.roleChange _ _)) | .text (some _) (some (.syncSv _ _))
  | .text (some _) (some .other) => .isTrue trivial

/-- The frame without what could reach the document of another client. -/
def muted : Frame E → Frame E
  | .binary _ => .text none none
  | .text m t => .text m (if s.Silent k t then t else some .other)

end Condition

section Inbox

variable {s : Ide E} {k : ℕ} (rest : List (Frame E))

/-! What is still to be read does not matter. -/

theorem setInbox_client (j : ℕ) :
    ((s.setConn k { s.conn k with inbox := rest }).conn j).client = (s.conn j).client :=
  setConn_same (·.client) (by rfl) j

theorem silent_setInbox (t : Option (Text E)) :
    (s.setConn k { s.conn k with inbox := rest }).Silent k t ↔ s.Silent k t := by
  unfold Silent
  split <;> simp only [AsksForItself, Registered, setInbox_client, setConn_clients]

theorem muted_setInbox (f : Frame E) :
    (s.setConn k { s.conn k with inbox := rest }).muted k f = s.muted k f := by
  cases f with
  | binary u => rfl
  | text m t => simp only [muted, silent_setInbox]

theorem Harmless.setInbox {f : Frame E} (h : s.Harmless k f) :
    (s.setConn k { s.conn k with inbox := rest }).Harmless k f := by
  have ht : ∀ j, ((s.setConn k { s.conn k with inbox := rest }).conn j).tab = (s.conn j).tab :=
    setConn_same (·.tab) rfl
  match f with
  | .binary u => simpa only [Harmless, setInbox_client] using h
  | .text none t => trivial
  | .text (some m) t =>
    simpa only [Harmless, Receives, Others, InSession, Registered, IsUser, Open, setInbox_client, ht,
      silent_setInbox, setConn_clients, setConn_next] using h

end Inbox

/-- The connection whose handler reads a frame. -/
def Action.served : Action E → Option ℕ
  | .serve k => some k
  | _ => none

section Machines

variable [DecidableEq E] [Edit E]

/-- A frame that is read from a user who is no editor is harmless, and no answer leaves its
session. -/
def NoInjection (s : Ide E) (x : Action E) : Prop :=
  ∀ k ∈ x.served, ∀ f ∈ (s.conn k).inbox.head?,
    (¬ s.IsEditor k → s.Harmless k f) ∧ s.AnswersWithin k f

instance (s : Ide E) (x : Action E) : Decidable (s.NoInjection x) :=
  inferInstanceAs (Decidable (∀ k ∈ _, ∀ f ∈ _, _))

/-! ## The machine in which only editors' frames count -/

/-- The loop reads a frame; a muted one if the user is no editor. -/
def serveEditors (s : Ide E) (k : ℕ) : Option (Ide E) :=
  if s.Idle k then
    match (s.conn k).inbox with
    | [] => none
    | f :: rest => some ((s.setConn k { s.conn k with inbox := rest }).handleFrame k
        (if s.IsEditor k then f else s.muted k f))
  else none

def stepEditors (cfg : Config E) (s : Ide E) : Action E → Option (Ide E)
  | .serve k => s.serveEditors k
  | x => s.step cfg x

end Machines

/-! ## The two machines in lockstep -/

/-- Messages that do the same to a page. -/
inductive SimMessage (tab : Tab E) : WSMessage E → WSMessage E → Prop
  | same (m : WSMessage E) : SimMessage tab m m
  | unread {m m' : WSMessage E} : tab.connected = false → SimMessage tab m m'

/-- Connections that differ in the messages to the page only. -/
inductive SimConn (c : Conn E) : Conn E → Prop
  | mk {send socket : List (WSMessage E)} :
    List.Forall₂ (SimMessage c.tab) c.client.send send →
    List.Forall₂ (SimMessage c.tab) c.socket socket →
    SimConn c { c with client := { c.client with send := send }, socket := socket }

/-- States that differ in such messages only. -/
inductive Sim (s : Ide E) : Ide E → Prop
  | mk {conn : ℕ → Conn E} : (∀ k, SimConn (s.conn k) (conn k)) → Sim s { s with conn := conn }

theorem SimMessage.mono {tab tab' : Tab E} {m m' : WSMessage E} (ht : tab.Continues tab')
    (h : SimMessage tab m m') : SimMessage tab' m m' := by
  cases h with
  | same => exact .same m
  | unread hc =>
    refine .unread (Bool.eq_false_iff.mpr fun hc' => ?_)
    exact absurd (hc.symm.trans (ht.connected hc')) (by decide)

theorem simMessages_mono {tab tab' : Tab E} {ms ms' : List (WSMessage E)} (ht : tab.Continues tab')
    (h : List.Forall₂ (SimMessage tab) ms ms') : List.Forall₂ (SimMessage tab') ms ms' :=
  h.imp fun _ _ hm => hm.mono ht

/-- Both messages do the same. -/
theorem SimMessage.onMessage [DecidableEq E] [Edit E] {tab : Tab E} {m m' : WSMessage E}
    (h : SimMessage tab m m') (hc : tab.connected = true) : tab.onMessage m' = tab.onMessage m := by
  cases h with
  | same => rfl
  | unread hc' => exact absurd (hc'.symm.trans hc) (by decide)

namespace SimConn

variable {c c' : Conn E}

theorem refl (c : Conn E) : SimConn c c :=
  .mk (List.forall₂_same.mpr fun m _ => .same m) (List.forall₂_same.mpr fun m _ => .same m)

/-- What does not see the messages sees no difference. -/
theorem same (h : SimConn c c') {γ : Type} (p : Conn E → γ)
    (hp : ∀ (c : Conn E) send socket,
      p { c with client := { c.client with send := send }, socket := socket } = p c) :
    p c' = p c := by
  cases h
  exact hp _ _ _

/-- The same change on both sides, of other fields than the messages. -/
theorem update (h : SimConn c c') (f : Conn E → Conn E)
    (hf : ∀ (c : Conn E) send socket,
      f { c with client := { c.client with send := send }, socket := socket } =
        { f c with client := { (f c).client with send := send }, socket := socket })
    (hs : (f c).client.send = c.client.send ∧ (f c).socket = c.socket)
    (ht : c.tab.Continues (f c).tab) : SimConn (f c) (f c') := by
  obtain @⟨send, socket, hsend, hsocket⟩ := h
  rw [hf c send socket]
  exact .mk (simMessages_mono ht (hs.1 ▸ hsend)) (simMessages_mono ht (hs.2 ▸ hsocket))

theorem trySend {m m' : WSMessage E} (h : SimConn c c')
    (hm : c.client.send.length < sendCap → SimMessage c.tab m m') :
    SimConn (c.trySend m) (c'.trySend m') := by
  obtain ⟨hsend, hsocket⟩ := h
  have hlen := hsend.length_eq
  refine .mk ?_ hsocket
  simp only [Conn.trySend, Client.trySend, ← hlen]
  split
  · exact List.rel_append hsend (.cons (hm ‹_›) .nil)
  · exact hsend

/-- A message that the handler writes itself. -/
theorem write (h : SimConn c c') (m : WSMessage E) : SimConn (c.write m) (c'.write m) := by
  obtain ⟨hsend, hsocket⟩ := h
  exact .mk hsend (List.rel_append hsocket (.cons (.same m) .nil))

end SimConn

namespace Sim

variable {s s' t : Ide E} {cfg : Config E} {k : ℕ}

theorem setConn {c c' : Conn E} (h : Sim s t) (hc : SimConn c c') :
    Sim (s.setConn k c) (t.setConn k c') := by
  obtain ⟨hconn⟩ := h
  refine .mk fun j => ?_
  by_cases hj : j = k
  · subst hj
    rw [setConn_conn_self, Function.update_self]
    exact hc
  · rw [setConn_conn_ne hj, Function.update_of_ne hj]
    exact hconn j

theorem post {target target' : ℕ → Prop} [DecidablePred target] [DecidablePred target']
    {m m' : WSMessage E} (h : Sim s t) (ht : ∀ j, target' j ↔ target j)
    (hm : ∀ j, target j → (s.conn j).client.send.length < sendCap →
      SimMessage (s.conn j).tab m m') :
    Sim (s.post target m) (t.post target' m') := by
  obtain ⟨hconn⟩ := h
  refine .mk fun j => ?_
  rw [post_conn]
  by_cases hj : target j
  · rw [if_pos hj, if_pos ((ht j).mpr hj)]
    exact (hconn j).trySend (hm j hj)
  · rw [if_neg hj, if_neg (mt (ht j).mp hj)]
    exact hconn j

theorem sessions (h : Sim s t) : t.sessions = s.sessions := by cases h; rfl
theorem clients (h : Sim s t) : t.clients = s.clients := by cases h; rfl
theorem next (h : Sim s t) : t.next = s.next := by cases h; rfl

theorem conn (h : Sim s t) (k : ℕ) : SimConn (s.conn k) (t.conn k) := by
  cases h with | mk hconn => exact hconn k

theorem id (h : Sim s t) (k : ℕ) : (t.conn k).client.id = (s.conn k).client.id :=
  (h.conn k).same (·.client.id) fun _ _ _ => rfl

theorem code (h : Sim s t) (k : ℕ) : (t.conn k).client.code = (s.conn k).client.code :=
  (h.conn k).same (·.client.code) fun _ _ _ => rfl

theorem todo (h : Sim s t) (k : ℕ) : (t.conn k).todo = (s.conn k).todo :=
  (h.conn k).same (·.todo) fun _ _ _ => rfl

theorem tab (h : Sim s t) (k : ℕ) : (t.conn k).tab = (s.conn k).tab :=
  (h.conn k).same (·.tab) fun _ _ _ => rfl

theorem inbox (h : Sim s t) (k : ℕ) : (t.conn k).inbox = (s.conn k).inbox :=
  (h.conn k).same (·.inbox) fun _ _ _ => rfl

theorem registered (h : Sim s t) (j : ℕ) : t.Registered j ↔ s.Registered j := by
  rw [Registered, Registered, h.clients, h.id]

theorem inSession (h : Sim s t) (code : String) (j : ℕ) :
    t.InSession code j ↔ s.InSession code j := by
  rw [InSession, InSession, h.registered, h.code]

theorem others (h : Sim s t) (id code : String) (j : ℕ) :
    t.Others id code j ↔ s.Others id code j := by
  rw [Others, Others, h.inSession, h.id]

theorem isUser (h : Sim s t) (id : String) (j : ℕ) : t.IsUser id j ↔ s.IsUser id j := by
  rw [IsUser, IsUser, h.clients]

theorem participants (h : Sim s t) (code : String) :
    t.sessionParticipants code = s.sessionParticipants code := by
  have hp : ∀ k, ((t.conn k).client.id, (t.conn k).client.role) =
      ((s.conn k).client.id, (s.conn k).client.role) := fun k =>
    (h.conn k).same (fun c => (c.client.id, c.client.role)) fun _ _ _ => rfl
  simp only [sessionParticipants, h.next, h.inSession, hp]

/-- The same change of a connection on both sides, of other fields than the messages. -/
theorem update (h : Sim s t) (f : Conn E → Conn E)
    (hf : ∀ (c : Conn E) send socket,
      f { c with client := { c.client with send := send }, socket := socket } =
        { f c with client := { (f c).client with send := send }, socket := socket })
    (hs : (f (s.conn k)).client.send = (s.conn k).client.send ∧
      (f (s.conn k)).socket = (s.conn k).socket)
    (ht : (s.conn k).tab.Continues (f (s.conn k)).tab) :
    Sim (s.setConn k (f (s.conn k))) (t.setConn k (f (t.conn k))) :=
  h.setConn ((h.conn k).update f hf hs ht)

theorem setTodo (h : Sim s t) (ts : List (Task E)) : Sim (s.setTodo k ts) (t.setTodo k ts) :=
  h.update (fun c => { c with todo := ts }) (fun _ _ _ => rfl) ⟨rfl, rfl⟩ (.refl _)

theorem doOp (h : Sim s t) (cmd : Cmd (Finset E)) : Sim (s.doOp cmd) (t.doOp cmd) := by
  obtain ⟨hconn⟩ := h
  exact .mk hconn

theorem setClients (h : Sim s t) (f : String → Option ℕ) :
    Sim { s with clients := f } { t with clients := f } := by
  obtain ⟨hconn⟩ := h
  exact .mk hconn

theorem setNext (h : Sim s t) (n : ℕ) : Sim { s with next := n } { t with next := n } := by
  obtain ⟨hconn⟩ := h
  exact .mk hconn

theorem perform (h : Sim s t) (task : Task E) :
    Sim (s.perform cfg k task) (t.perform cfg k task) := by
  cases task with
  | getRole =>
    simp only [Ide.perform, h.sessions]
    exact h.update
      (fun c => { c with client := { c.client with
        role := s.sessions.getRole c.client.code c.client.id } })
      (fun _ _ _ => rfl) ⟨rfl, rfl⟩ (.refl _)
  | register =>
    simp only [Ide.perform, Ide.register, h.id, h.clients]
    exact h.setClients _
  | sendDoc =>
    simp only [Ide.perform, h.sessions, h.code]
    split
    · exact h.setConn ((h.conn k).write _)
    · exact h
  | listParticipants =>
    simp only [Ide.perform, h.code, h.participants, h.todo]
    exact h.setTodo _
  | startPump =>
    exact h.update (fun c => { c with pumping := true }) (fun _ _ _ => rfl) ⟨rfl, rfl⟩ (.refl _)
  | submit cmd last => exact h.doOp cmd
  | redirect => exact h.setConn ((h.conn k).write _)
  | broadcast m =>
    simp only [Ide.perform, h.code, h.id]
    exact h.post (h.others _ _) fun j _ _ => .same m
  | broadcastAll m =>
    simp only [Ide.perform, h.code]
    exact h.post (h.inSession _) fun j _ _ => .same m
  | updateClientRole userID role =>
    simp only [Ide.perform, Ide.updateClientRole, h.clients]
    split
    · exact h.update (fun c => { c with client := { c.client with role := role } })
        (fun _ _ _ => rfl) ⟨rfl, rfl⟩ (.refl _)
    · exact h
  | unregister =>
    simp only [Ide.perform, Ide.unregister]
    by_cases hreg : s.Registered k
    · rw [if_pos hreg, if_pos ((h.registered k).mpr hreg)]
      have hclients : Function.update t.clients (t.conn k).client.id none =
          Function.update s.clients (s.conn k).client.id none := by rw [h.clients, h.id]
      rw [hclients]
      exact (h.update (k := k) (fun c => { c with client := { c.client with closed := true } })
        (fun _ _ _ => rfl) ⟨rfl, rfl⟩ (.refl _)).setClients _
    · rw [if_neg hreg, if_neg (mt (h.registered k).mp hreg)]
      exact h


/-- A text frame with another text on the right side, if it does the same to its receivers. -/
theorem handleText (h : Sim s t) (m : IncomingMsg) {x x' : Option (Text E)}
    (hx : ∀ j, s.Receives k m j → (s.conn j).client.send.length < sendCap →
      SimMessage (s.conn j).tab (.text x) (.text x')) :
    Sim (s.handleFrame k (.text (some m) x)) (t.handleFrame k (.text (some m) x')) := by
  have hp : (t.conn k).client.proposalTasks m = (s.conn k).client.proposalTasks m :=
    (h.conn k).same (·.client.proposalTasks m) fun _ _ _ => rfl
  have hr : (t.conn k).client.roleChangeTasks m = (s.conn k).client.roleChangeTasks m :=
    (h.conn k).same (·.client.roleChangeTasks m) fun _ _ _ => rfl
  have relay (hm : m.type ∈ ["run_result", "awareness", "sync_sv"]) :
      Sim (s.broadcastSession (.text x) (s.conn k).client.id (s.conn k).client.code)
        (t.broadcastSession (.text x') (s.conn k).client.id (s.conn k).client.code) :=
    h.post (h.others _ _) fun j hj => hx j (.inl ⟨hm, hj⟩)
  simp only [Ide.handleFrame, hp, hr, h.id, h.code]
  split
  · exact h.setTodo _
  · exact h.setTodo _
  · rename_i hm; exact relay (by simp [hm])
  · rename_i hm; exact relay (by simp [hm])
  · rename_i hm; exact relay (by simp [hm])
  · rename_i hm
    by_cases hto : m.toID ≠ ""
    · rw [if_pos hto, if_pos hto]
      exact h.post (h.isUser _) fun j hj => hx j (.inr ⟨hm, hto, hj⟩)
    · rw [if_neg hto, if_neg hto]
      exact h
  · exact h

theorem handleFrame (h : Sim s t) (f : Frame E) :
    Sim (s.handleFrame k f) (t.handleFrame k f) := by
  match f with
  | .binary u =>
    have hb : (t.conn k).client.binaryTasks u = (s.conn k).client.binaryTasks u :=
      (h.conn k).same (·.client.binaryTasks u) fun _ _ _ => rfl
    simp only [Ide.handleFrame, hb]
    exact h.setTodo _
  | .text none _ => exact h
  | .text (some m) x => exact h.handleText m fun j _ _ => .same _

theorem silent (h : Sim s t) (text : Option (Text E)) : t.Silent k text ↔ s.Silent k text := by
  unfold Silent
  split <;> simp only [AsksForItself, h.registered, h.id]

/-- A harmless frame does the same if it is muted. -/
theorem handleMuted (h : Sim s t) (htodo : (s.conn k).todo = []) (hwf : s.WF) {f : Frame E}
    (hf : s.Harmless k f) : Sim (s.handleFrame k f) (t.handleFrame k (t.muted k f)) := by
  match f with
  | .binary u =>
    have hs : s.setTodo k [] = s := by
      simp only [Ide.setTodo, Ide.setConn, ← htodo, Function.update_eq_self]
    have hb : (s.conn k).client.binaryTasks u = [] := if_neg hf
    simp only [Ide.handleFrame, muted, hb, hs]
    exact h
  | .text none _ => exact h
  | .text (some m) text =>
    refine h.handleText m fun j hj hroom => ?_
    have hlt : j < s.next := by
      obtain ⟨-, hj⟩ | ⟨-, -, hj⟩ := hj
      · exact hwf.inSession hj.1
      · exact (hwf.registered hj).1
    cases hc : (s.conn j).tab.connected with
    | false => exact .unread hc
    | true =>
      rw [if_pos ((h.silent text).mpr (hf j hlt hj ⟨hroom, hc⟩))]
      exact .same _

theorem serving (h : Sim s t) (k : ℕ) : (t.conn k).serving = (s.conn k).serving :=
  (h.conn k).same (·.serving) fun _ _ _ => rfl

theorem idle (h : Sim s t) (k : ℕ) : t.Idle k ↔ s.Idle k := by
  rw [Idle, Idle, h.serving, h.todo]

theorem isEditor (h : Sim s t) (k : ℕ) : t.IsEditor k ↔ s.IsEditor k := by
  rw [IsEditor, IsEditor, h.sessions, h.code, h.id]

theorem setTab (h : Sim s t) {r : Tab E × List (Frame E)} (hr : (s.conn k).tab.Continues r.1) :
    Sim (s.setTab k r) (t.setTab k r) :=
  h.update (fun c => { c with tab := r.1, inbox := c.inbox ++ r.2 }) (fun _ _ _ => rfl) ⟨rfl, rfl⟩ hr

theorem pump (h : Sim s t) : Option.Rel Sim (s.pump k) (t.pump k) := by
  have hc := h.conn k
  simp only [Ide.pump]
  generalize t.conn k = c' at hc ⊢
  obtain @⟨send', socket', hsend, hsocket⟩ := hc
  generalize hs : (s.conn k).client.send = send at hsend ⊢
  cases hsend with
  | nil => exact .none
  | cons hm hrest =>
    simp only
    split
    · exact .some (h.setConn (.mk hrest (List.rel_append hsocket (.cons hm .nil))))
    · exact .none

section Steps

variable [DecidableEq E] [Edit E]

omit [DecidableEq E] [Edit E] in
theorem serve (h : Sim s t) (hwf : s.WF)
    (hx : ∀ f ∈ (s.conn k).inbox.head?, ¬ s.IsEditor k → s.Harmless k f) :
    Option.Rel Sim (s.serve k) (t.serveEditors k) := by
  simp only [Ide.serve, serveEditors, h.idle, h.inbox, h.isEditor]
  by_cases hi : s.Idle k
  · rw [if_pos hi, if_pos hi]
    cases hin : (s.conn k).inbox with
    | nil => exact .none
    | cons f rest =>
      have hk := h.update (k := k) (fun c => { c with inbox := rest }) (fun _ _ _ => rfl) ⟨rfl, rfl⟩
        (.refl _)
      refine .some ?_
      by_cases hed : s.IsEditor k
      · rw [if_pos hed]
        exact hk.handleFrame f
      · rw [if_neg hed, ← muted_setInbox rest f]
        refine hk.handleMuted ?_ (hwf.setConn (hwf.lt_of_serving hi.1) rfl) ?_
        · rw [setConn_conn_self]
          exact hi.2
        · exact (hx f (by rw [hin]; rfl) hed).setInbox rest
  · rw [if_neg hi, if_neg hi]
    exact .none

theorem receive (h : Sim s t) : Option.Rel Sim (s.receive k) (t.receive k) := by
  have hc := h.conn k
  simp only [Ide.receive]
  generalize t.conn k = c' at hc ⊢
  obtain @⟨send', socket', hsend, hsocket⟩ := hc
  generalize hs : (s.conn k).socket = socket at hsocket ⊢
  cases hsocket with
  | nil => exact .none
  | @cons m _ rest _ hm hrest =>
    simp only
    split
    · rename_i hc
      rw [hm.onMessage hc]
      have hk := h.setConn (k := k) (.mk (c := { s.conn k with socket := rest }) hsend hrest)
      refine .some (hk.setTab ?_)
      rw [setConn_conn_self]
      exact (s.conn k).tab.onMessage_continues m hc
    · exact .none

/-- A step in which nothing is injected, on both machines. -/
theorem step {x : Action E} (h : Sim s t) (hwf : s.WF) (hx : s.NoInjection x) :
    Option.Rel Sim (s.step cfg x) (t.stepEditors cfg x) := by
  cases x with
  | create userID code =>
    simp only [Ide.step, stepEditors]
    split
    · exact .none
    · exact .some (h.doOp _)
  | join userID code =>
    simp only [Ide.step, stepEditors, h.sessions]
    split
    · exact .some (h.doOp _)
    · exact .none
  | connect userID code role =>
    simp only [Ide.step, stepEditors, Ide.connect, h.sessions, h.next]
    split
    · exact .some ((h.setConn (.refl _)).setNext _)
    · exact .none
  | run k =>
    simp only [Ide.step, stepEditors, Ide.runTask, h.todo]
    split
    · exact .none
    · exact .some ((h.setTodo _).perform _)
  | refuse k =>
    simp only [Ide.step, stepEditors, Ide.refuse, h.todo]
    split
    · split
      · rename_i last _ _ _
        exact .some (h.update (fun c => { c with
          todo := .redirect :: if last then closingTasks else []
          serving := !last
          inbox := if last then [] else c.inbox }) (fun _ _ _ => rfl) ⟨rfl, rfl⟩ (.refl _))
      · exact .none
    · exact .none
  | replicate cmd =>
    simp only [Ide.step, stepEditors]
    split
    · exact .some (h.doOp _)
    · exact .none
  | serve k => exact h.serve hwf fun f hf => (hx k rfl f hf).1
  | fail k =>
    have hc : (t.conn k).tab.connected = (s.conn k).tab.connected := by rw [h.tab]
    simp only [Ide.step, stepEditors, Ide.fail, h.idle, hc]
    split
    · exact .some (h.update (k := k)
        (fun c => { c with serving := false, inbox := [], todo := closingTasks })
        (fun _ _ _ => rfl) ⟨rfl, rfl⟩ (.refl _))
    · exact .none
  | pump k => exact h.pump
  | receive k => exact h.receive
  | edit k es =>
    simp only [Ide.step, stepEditors, Ide.edit, h.tab]
    split
    · exact .some (h.setTab ((s.conn k).tab.edit_continues es))
    · exact .none
  | starter k es =>
    simp only [Ide.step, stepEditors, Ide.starter, h.tab]
    split
    · exact .some (h.setTab ((s.conn k).tab.starter_continues cfg.emptyText es))
    · exact .none
  | send k f =>
    simp only [Ide.step, stepEditors, Ide.send, h.tab, h.serving]
    split
    · exact .some (h.setTab (r := (_, _)) (.refl _))
    · exact .none
  | hangUp k =>
    simp only [Ide.step, stepEditors, Ide.hangUp, h.tab]
    split
    · exact .some (h.setTab (r := (_, _)) ⟨subset_rfl, fun h => by cases h⟩)
    · exact .none

end Steps

end Sim

section Machines

variable [DecidableEq E] [Edit E] {cfg : Config E} {s : Ide E} {xs : List (Action E)}

end Machines

/-- Ann creates the session, her page inserts the starter program, and Bob joins as a viewer. -/
def editorAndViewer : List (Action ℕ) :=
  .create "ann" "abc" :: opens 0 "ann" "editor" ++ gets 0 ++ [.starter 0 {0}] ++ takes 0 ++
    [.serve 0, .join "bob" "abc"] ++ opens 1 "bob" "viewer" ++ gets 0

end Ide

end CollabIde
