import CollabIde.Ide.Hub

/-!
# What a handler does

`handleWS` as a list of tasks for each frame, each task one access to what the handlers share, so
that the handlers of two connections interleave between any two of them. A frame that is passed on
is read and put into the queues in one step, as nothing is accessed in between.
-/

namespace CollabIde

variable {E : Type}

/-- `Server`'s fields besides its hub and its sessions, and what a page makes of a text. -/
structure Config (E : Type) where
  /-- Whether commands go through Raft. -/
  rsm : Bool
  leaderPort : ℕ
  /-- Whether the text that the edits give has length 0. -/
  emptyText : Finset E → Bool

/-- From the upgrade to the loop. -/
def openingTasks : List (Task E) := [.getRole, .register, .sendDoc, .listParticipants, .startPump]

/-- After the loop. -/
def closingTasks : List (Task E) := [.unregister, .listParticipants]

namespace Client

variable (c : Client E)

/-- `handleProposalMsg`. -/
def proposalTasks (m : IncomingMsg) : List (Task E) :=
  match m.action with
  | "add" =>
    if c.role ≠ "proposer" ∧ c.role ≠ "editor" then []
    else [
      .submit (.proposal {
        sessionCode := c.code, id := m.id, author := c.id, replacement := m.replacement
        originalText := m.originalText, relStart := m.relStart, relEnd := m.relEnd
        startLine := m.startLine, endLine := m.endLine, action := "add" }) false,
      .broadcastAll (.text (some (.proposal "add" {
        id := m.id, author := c.id, replacement := m.replacement, originalText := m.originalText
        relStart := m.relStart, relEnd := m.relEnd, startLine := m.startLine
        endLine := m.endLine })))]
  | "accept" | "reject" =>
    if c.role ≠ "editor" then []
    else match m.proposal with
      | none => []
      | some id => [
        .submit (.proposal {
          sessionCode := c.code, id := id, author := "", replacement := "", originalText := ""
          relStart := "", relEnd := "", startLine := 0, endLine := 0, action := m.action }) false,
        .broadcastAll (.text (some (.proposal m.action { id := id })))]
  | _ => []

/-- `handleRoleChangeMsg`. -/
def roleChangeTasks (m : IncomingMsg) : List (Task E) :=
  if c.role ≠ "editor" then []
  else if m.role ≠ "editor" ∧ m.role ≠ "proposer" ∧ m.role ≠ "viewer" then []
  else [
    .updateClientRole m.userID m.role, .submit (.roleChange ⟨c.code, m.userID, m.role⟩) false,
    .broadcastAll (.text (some (.roleChange m.userID m.role))), .listParticipants]

/-- Only editors push updates. -/
def binaryTasks (update : Finset E) : List (Task E) :=
  if c.role = "editor" then
    [.submit (.crdtUpdate ⟨c.code, update⟩) true, .broadcast (.binary update)]
  else []

end Client

namespace Ide

variable (cfg : Config E) (s : Ide E) (k : ℕ)

def setTodo (ts : List (Task E)) : Ide E := s.setConn k { s.conn k with todo := ts }

/-- `DoOp` of a command, with its record. -/
def doOp (cmd : Cmd (Finset E)) : Ide E :=
  { s with sessions := s.sessions.doOp cmd, applied := s.applied ++ cmd.update.toList }

/-- The task of the handler of connection `k`. -/
def perform : Task E → Ide E
  | .getRole =>
    let c := s.conn k
    s.setConn k { c with
      client := { c.client with role := s.sessions.getRole c.client.code c.client.id } }
  | .register => s.register k
  | .sendDoc => match s.sessions.getDoc (s.conn k).client.code with
    | some doc => s.setConn k ((s.conn k).write (.binary doc))
    | none => s
  | .listParticipants =>
    let code := (s.conn k).client.code
    s.setTodo k (.broadcastAll (.text (some (.participants (s.sessionParticipants code)))) ::
      (s.conn k).todo)
  | .startPump => s.setConn k { s.conn k with pumping := true }
  | .submit cmd _ => s.doOp cmd
  | .redirect => s.setConn k ((s.conn k).write (.text (some (.redirect cfg.leaderPort))))
  | .broadcast m => s.broadcastSession m (s.conn k).client.id (s.conn k).client.code
  | .broadcastAll m => s.broadcastSessionAll m (s.conn k).client.code
  | .updateClientRole userID role => s.updateClientRole userID role
  | .unregister => s.unregister k

/-- The next task of the handler. -/
def runTask : Option (Ide E) :=
  match (s.conn k).todo with
  | [] => none
  | t :: rest => some ((s.setTodo k rest).perform cfg k t)

/-- `submit` returns false: the client is redirected, and the loop ends if the frame was binary. -/
def refuse : Option (Ide E) :=
  match (s.conn k).todo with
  | .submit _ last :: _ =>
    if cfg.rsm then
      some (s.setConn k { s.conn k with
        todo := .redirect :: if last then closingTasks else []
        serving := !last
        inbox := if last then [] else (s.conn k).inbox })
    else none
  | _ => none

/-- The handler's reaction to a frame. -/
def handleFrame : Frame E → Ide E
  | .binary update => s.setTodo k ((s.conn k).client.binaryTasks update)
  | .text none _ => s
  | .text (some m) t =>
    let c := (s.conn k).client
    match m.type with
    | "proposal" => s.setTodo k (c.proposalTasks m)
    | "role_change" => s.setTodo k (c.roleChangeTasks m)
    | "run_result" | "awareness" | "sync_sv" => s.broadcastSession (.text t) c.id c.code
    | "sync_update" => if m.toID ≠ "" then s.sendRaw m.toID (.text t) else s
    | _ => s

/-- The handler is in its loop and has handled all that it has read. -/
def Idle : Prop := (s.conn k).serving = true ∧ (s.conn k).todo = []

instance : Decidable (s.Idle k) := inferInstanceAs (Decidable (_ ∧ _))

/-- The loop reads a frame. -/
def serve : Option (Ide E) :=
  if s.Idle k then
    match (s.conn k).inbox with
    | [] => none
    | f :: rest => some ((s.setConn k { s.conn k with inbox := rest }).handleFrame k f)
  else none

/-- The loop ends with a read error, once the connection is broken. -/
def fail : Option (Ide E) :=
  if s.Idle k ∧ (s.conn k).tab.connected = false then
    some (s.setConn k { s.conn k with serving := false, inbox := [], todo := closingTasks })
  else none

/-- `writePump` writes a message. -/
def pump : Option (Ide E) :=
  let c := s.conn k
  match c.client.send with
  | [] => none
  | m :: rest =>
    if c.pumping then
      some (s.setConn k { c with
        client := { c.client with send := rest }, socket := c.socket ++ [m] })
    else none

/-! ## What a task and a frame leave -/

section Leave

variable {cfg s k} {j : ℕ} {γ : Type}

variable (cfg s k) in
/-- A task leaves what `p` sees of a connection, if it sees no queue, no task and, where the task
may change it, no role. -/
theorem perform_same (p : Conn E → γ) (t : Task E) (j : ℕ)
    (hrole : (t = .getRole ∨ ∃ userID role, t = .updateClientRole userID role) →
      ∀ (c : Conn E) role, p { c with client := { c.client with role := role } } = p c)
    (hp : ∀ (c : Conn E) send closed todo pumping socket,
      p { c with client := { c.client with send := send, closed := closed }, todo := todo,
                 pumping := pumping, socket := socket } = p c) :
    p ((s.perform cfg k t).conn j) = p (s.conn j) := by
  cases t with
  | getRole => exact setConn_same p (hrole (.inl rfl) _ _) j
  | register => rfl
  | sendDoc =>
    simp only [perform]
    split
    · exact setConn_same p (hp _ _ _ _ _ _) j
    · rfl
  | listParticipants => exact setConn_same p (hp _ _ _ _ _ _) j
  | startPump => exact setConn_same p (hp _ _ _ _ _ _) j
  | submit cmd last => rfl
  | redirect => exact setConn_same p (hp _ _ _ _ _ _) j
  | broadcast m => exact post_same p (fun c m => hp c _ c.client.closed c.todo c.pumping c.socket) j
  | broadcastAll m =>
    exact post_same p (fun c m => hp c _ c.client.closed c.todo c.pumping c.socket) j
  | updateClientRole userID role =>
    simp only [perform, updateClientRole]
    split
    · exact setConn_same p (hrole (.inr ⟨_, _, rfl⟩) _ _) j
    · rfl
  | unregister =>
    simp only [perform, unregister]
    split
    · exact setConn_same p (hp _ _ _ _ _ _) j
    · rfl

variable (s k) in
/-- What a task puts before the tasks that are still to be done. -/
def follow : Task E → List (Task E)
  | .listParticipants => [.broadcastAll (.text (some (.participants
      (s.sessionParticipants (s.conn k).client.code))))]
  | _ => []

theorem perform_todo_self (t : Task E) :
    ((s.perform cfg k t).conn k).todo = s.follow k t ++ (s.conn k).todo := by
  cases t with
  | listParticipants => exact congrArg Conn.todo setConn_conn_self
  | getRole => exact setConn_same Conn.todo (by rfl) k
  | startPump => exact setConn_same Conn.todo (by rfl) k
  | redirect => exact setConn_same Conn.todo (by rfl) k
  | register => rfl
  | submit cmd last => rfl
  | broadcast m => exact post_same Conn.todo (fun _ _ => rfl) k
  | broadcastAll m => exact post_same Conn.todo (fun _ _ => rfl) k
  | sendDoc =>
    simp only [perform]
    split
    · exact setConn_same Conn.todo (by rfl) k
    · rfl
  | updateClientRole userID role =>
    simp only [perform, updateClientRole]
    split
    · exact setConn_same Conn.todo (by rfl) k
    · rfl
  | unregister =>
    simp only [perform, unregister]
    split
    · exact setConn_same Conn.todo (by rfl) k
    · rfl

theorem perform_todo_ne (t : Task E) (hj : j ≠ k) :
    ((s.perform cfg k t).conn j).todo = (s.conn j).todo := by
  cases t with
  | listParticipants => exact congrArg Conn.todo (setConn_conn_ne hj)
  | getRole => exact congrArg Conn.todo (setConn_conn_ne hj)
  | startPump => exact congrArg Conn.todo (setConn_conn_ne hj)
  | redirect => exact congrArg Conn.todo (setConn_conn_ne hj)
  | register => rfl
  | submit cmd last => rfl
  | broadcast m => exact post_same Conn.todo (fun _ _ => rfl) j
  | broadcastAll m => exact post_same Conn.todo (fun _ _ => rfl) j
  | sendDoc =>
    simp only [perform]
    split
    · exact congrArg Conn.todo (setConn_conn_ne hj)
    · rfl
  | updateClientRole userID role =>
    simp only [perform, updateClientRole]
    split
    · exact setConn_same Conn.todo (by rfl) j
    · rfl
  | unregister =>
    simp only [perform, unregister]
    split
    · exact congrArg Conn.todo (setConn_conn_ne hj)
    · rfl

variable (cfg s k) in
/-- A task leaves the tasks that are still to be done, behind the broadcast that
`listParticipants` brings. -/
theorem perform_todo (t : Task E) (j : ℕ) : ∃ ms : List (WSMessage E),
    ((s.perform cfg k t).conn j).todo = ms.map .broadcastAll ++ (s.conn j).todo := by
  by_cases hj : j = k
  · rw [hj, perform_todo_self]
    cases t with
    | listParticipants => exact ⟨[_], rfl⟩
    | _ => exact ⟨[], rfl⟩
  · exact ⟨[], perform_todo_ne t hj⟩

variable (s k) in
/-- A frame leaves what `p` sees of a connection, if it sees no queue and no task. -/
theorem handleFrame_same (p : Conn E → γ) (f : Frame E) (j : ℕ)
    (hp : ∀ (c : Conn E) send todo,
      p { c with client := { c.client with send := send }, todo := todo } = p c) :
    p ((s.handleFrame k f).conn j) = p (s.conn j) := by
  have hpost : ∀ (c : Conn E) m, p (c.trySend m) = p c := fun c m => hp c _ c.todo
  unfold handleFrame
  split
  · exact setConn_same p (hp _ _ _) j
  · rfl
  · simp only
    split
    · exact setConn_same p (hp _ _ _) j
    · exact setConn_same p (hp _ _ _) j
    · exact post_same p hpost j
    · exact post_same p hpost j
    · exact post_same p hpost j
    · split
      · exact post_same p hpost j
      · rfl
    · rfl

theorem handleFrame_todo_ne (f : Frame E) (hj : j ≠ k) :
    ((s.handleFrame k f).conn j).todo = (s.conn j).todo := by
  unfold handleFrame
  split
  · exact congrArg Conn.todo (setConn_conn_ne hj)
  · rfl
  · simp only
    split
    · exact congrArg Conn.todo (setConn_conn_ne hj)
    · exact congrArg Conn.todo (setConn_conn_ne hj)
    · exact post_same Conn.todo (fun _ _ => rfl) j
    · exact post_same Conn.todo (fun _ _ => rfl) j
    · exact post_same Conn.todo (fun _ _ => rfl) j
    · split
      · exact post_same Conn.todo (fun _ _ => rfl) j
      · rfl
    · rfl

end Leave

namespace WF

variable {cfg s k}

theorem perform (h : s.WF) (hk : k < s.next) (t : Task E) : (s.perform cfg k t).WF := by
  cases t with
  | getRole => exact h.setConn hk rfl
  | register => exact h.register hk
  | sendDoc =>
    simp only [Ide.perform]
    split
    · exact h.setConn hk rfl
    · exact h
  | listParticipants => exact h.setConn hk rfl
  | startPump => exact h.setConn hk rfl
  | submit cmd last => exact ⟨h.unused, h.registered⟩
  | redirect => exact h.setConn hk rfl
  | broadcast m => exact h.post m fun j hj => h.inSession hj.1
  | broadcastAll m => exact h.post m fun j hj => h.inSession hj
  | updateClientRole userID role => exact h.updateClientRole userID role
  | unregister => exact h.unregister

theorem handleFrame (h : s.WF) (hk : k < s.next) (f : Frame E) : (s.handleFrame k f).WF := by
  unfold Ide.handleFrame
  split
  · exact h.setConn hk rfl
  · exact h
  · simp only
    split
    · exact h.setConn hk rfl
    · exact h.setConn hk rfl
    · exact h.post _ fun j hj => h.inSession hj.1
    · exact h.post _ fun j hj => h.inSession hj.1
    · exact h.post _ fun j hj => h.inSession hj.1
    · split
      · exact h.post _ fun j hj => (h.registered hj).1
      · exact h
    · exact h

end WF

end Ide

end CollabIde
