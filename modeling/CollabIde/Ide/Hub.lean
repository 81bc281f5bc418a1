import CollabIde.Ide.Frontend

/-!
# The hub: connections and their queues

A connection has the server's `Client`, what its handler has still to do (`todo`), the frames that
are on their way from the client (`inbox`) and to it (`socket`), and the page. The map of the hub
gives for a user ID the connection that was registered last. A send to a full queue is discarded.
-/

namespace CollabIde

/-- The server's side of a connection. -/
structure Client (E : Type) where
  id : String
  role : String
  code : String
  send : List (WSMessage E)
  closed : Bool

/-- One access of a handler to what handlers share. -/
inductive Task (E : Type) where
  | getRole
  | register
  | sendDoc
  | listParticipants
  | startPump
  | submit (cmd : Cmd (Finset E)) (last : Bool)
  | redirect
  | broadcast (m : WSMessage E)
  | broadcastAll (m : WSMessage E)
  | updateClientRole (userID role : String)
  | unregister

structure Conn (E : Type) where
  client : Client E
  /-- What the handler does next; then it reads a frame, if it is still `serving`. -/
  todo : List (Task E)
  serving : Bool
  pumping : Bool
  inbox : List (Frame E)
  socket : List (WSMessage E)
  tab : Tab E

/-- The server with its connections. `applied` records the document updates that have been
applied. -/
structure Ide (E : Type) where
  sessions : Sessions (Finset E)
  clients : String → Option ℕ
  conn : ℕ → Conn E
  next : ℕ
  applied : List (CRDTUpdateCmd (Finset E))

variable {E : Type}

/-- `cap(Client.Send)`. -/
def sendCap : ℕ := 64

/-- A send that does not block. -/
def Client.trySend (c : Client E) (m : WSMessage E) : Client E :=
  { c with send := if c.send.length < sendCap then c.send ++ [m] else c.send }

namespace Conn

variable (c : Conn E)

/-- A number that no connection has had yet. -/
def unused : Conn E :=
  ⟨⟨"", "", "", [], false⟩, [], false, false, [], [], { Tab.load "" "" with connected := false }⟩

/-- The messages on their way to the page, in their order. -/
def pipeline : List (WSMessage E) := c.socket ++ c.client.send

/-- A write of the handler itself. -/
def write (m : WSMessage E) : Conn E := { c with socket := c.socket ++ [m] }

def trySend (m : WSMessage E) : Conn E := { c with client := c.client.trySend m }

end Conn

namespace Ide

variable (s : Ide E)

def setConn (k : ℕ) (c : Conn E) : Ide E := { s with conn := Function.update s.conn k c }

/-- The connection that the hub has for its user. -/
def Registered (k : ℕ) : Prop := s.clients (s.conn k).client.id = some k

instance (k : ℕ) : Decidable (s.Registered k) := inferInstanceAs (Decidable (_ = _))

/-- A message for all connections in `target`. -/
def post (target : ℕ → Prop) [DecidablePred target] (m : WSMessage E) : Ide E :=
  { s with conn := fun k => if target k then (s.conn k).trySend m else s.conn k }

/-- The receivers of `BroadcastSessionAll`. -/
def InSession (code : String) (k : ℕ) : Prop :=
  s.Registered k ∧ (s.conn k).client.code = code

/-- The receivers of `BroadcastSession`. -/
def Others (senderID code : String) (k : ℕ) : Prop :=
  s.InSession code k ∧ (s.conn k).client.id ≠ senderID

/-- The receiver of `SendRaw`. -/
def IsUser (userID : String) (k : ℕ) : Prop := s.clients userID = some k

instance (code : String) (k : ℕ) : Decidable (s.InSession code k) :=
  inferInstanceAs (Decidable (_ ∧ _))
instance (senderID code : String) (k : ℕ) : Decidable (s.Others senderID code k) :=
  inferInstanceAs (Decidable (_ ∧ _))
instance (userID : String) (k : ℕ) : Decidable (s.IsUser userID k) :=
  inferInstanceAs (Decidable (_ = _))

def broadcastSessionAll (m : WSMessage E) (code : String) : Ide E := s.post (s.InSession code) m

def broadcastSession (m : WSMessage E) (senderID code : String) : Ide E :=
  s.post (s.Others senderID code) m

def sendRaw (userID : String) (m : WSMessage E) : Ide E := s.post (s.IsUser userID) m

def sessionParticipants (code : String) : List (String × String) :=
  ((List.range s.next).filter fun k => s.InSession code k).map fun k =>
    ((s.conn k).client.id, (s.conn k).client.role)

def register (k : ℕ) : Ide E :=
  { s with clients := Function.update s.clients (s.conn k).client.id (some k) }

def unregister (k : ℕ) : Ide E :=
  if s.Registered k then
    let c := s.conn k
    { s.setConn k { c with client := { c.client with closed := true } } with
      clients := Function.update s.clients c.client.id none }
  else s

def updateClientRole (userID role : String) : Ide E :=
  match s.clients userID with
  | some k =>
    let c := s.conn k
    s.setConn k { c with client := { c.client with role := role } }
  | none => s

section Update

variable {s} {k j : ℕ} {c : Conn E}

@[simp] theorem setConn_sessions : (s.setConn k c).sessions = s.sessions := rfl
@[simp] theorem setConn_clients : (s.setConn k c).clients = s.clients := rfl
@[simp] theorem setConn_next : (s.setConn k c).next = s.next := rfl
@[simp] theorem setConn_applied : (s.setConn k c).applied = s.applied := rfl

@[simp] theorem setConn_conn_self : (s.setConn k c).conn k = c := Function.update_self ..

theorem setConn_conn_ne (h : j ≠ k) : (s.setConn k c).conn j = s.conn j :=
  Function.update_of_ne h ..

/-- What `p` sees of the connections, if it sees no difference at `k`. -/
theorem setConn_same {γ : Type} (p : Conn E → γ) (h : p c = p (s.conn k)) (j : ℕ) :
    p ((s.setConn k c).conn j) = p (s.conn j) := by
  by_cases hj : j = k
  · rw [hj, setConn_conn_self, h]
  · rw [setConn_conn_ne hj]

end Update

section Post

variable {s} {target : ℕ → Prop} [DecidablePred target] {m : WSMessage E} {j : ℕ}

theorem post_conn : (s.post target m).conn j = if target j then (s.conn j).trySend m else s.conn j :=
  rfl

/-- A message changes a connection's queue only. -/
theorem post_same {γ : Type} (p : Conn E → γ) (h : ∀ c m, p (c.trySend m) = p c) (j : ℕ) :
    p ((s.post target m).conn j) = p (s.conn j) := by
  rw [post_conn]
  split
  · exact h _ _
  · rfl

end Post

/-! ## Numbers and users -/

/-- The hub has only connections that exist, by their users. -/
structure WF : Prop where
  unused : ∀ k, s.next ≤ k → s.conn k = .unused
  registered : ∀ {u k}, s.clients u = some k → k < s.next ∧ (s.conn k).client.id = u

namespace WF

variable {s} {k : ℕ} {c : Conn E}

theorem lt_of_ne (h : s.WF) (hk : s.conn k ≠ .unused) : k < s.next :=
  not_le.mp fun hle => hk (h.unused k hle)

/-- A connection at which something can happen exists. -/
theorem lt_of_todo (h : s.WF) {t : Task E} {rest : List (Task E)}
    (ht : (s.conn k).todo = t :: rest) : k < s.next :=
  h.lt_of_ne fun hu => by rw [hu] at ht; cases ht

theorem lt_of_connected (h : s.WF) (hc : (s.conn k).tab.connected = true) : k < s.next :=
  h.lt_of_ne fun hu => by rw [hu] at hc; cases hc

theorem lt_of_serving (h : s.WF) (hi : (s.conn k).serving = true) : k < s.next :=
  h.lt_of_ne fun hu => by rw [hu] at hi; cases hi

theorem setConn (h : s.WF) (hk : k < s.next) (hid : c.client.id = (s.conn k).client.id) :
    (s.setConn k c).WF where
  unused j hj := by
    rw [setConn_conn_ne (by simp only [setConn_next] at hj; omega)]
    exact h.unused j hj
  registered {u j} hu := by
    obtain ⟨h1, h2⟩ := h.registered hu
    exact ⟨h1, (setConn_same (fun c => c.client.id) hid j).trans h2⟩

theorem post (h : s.WF) {target : ℕ → Prop} [DecidablePred target] (m : WSMessage E)
    (ht : ∀ j, target j → j < s.next) : (s.post target m).WF where
  unused j hj := by
    rw [post_conn, if_neg fun hj' => absurd (ht j hj') (not_lt.mpr hj)]
    exact h.unused j hj
  registered {u j} hu := by
    obtain ⟨h1, h2⟩ := h.registered hu
    exact ⟨h1, (post_same (fun c => c.client.id) (fun _ _ => rfl) j).trans h2⟩

theorem inSession (h : s.WF) {code : String} (hk : s.InSession code k) : k < s.next :=
  (h.registered hk.1).1

theorem register (h : s.WF) (hk : k < s.next) : (s.register k).WF where
  unused := h.unused
  registered {u j} hu := by
    change Function.update s.clients (s.conn k).client.id (some k) u = some j at hu
    by_cases huk : u = (s.conn k).client.id
    · subst huk
      rw [Function.update_self] at hu
      cases hu
      exact ⟨hk, rfl⟩
    · rw [Function.update_of_ne huk] at hu
      exact h.registered hu

theorem unregister (h : s.WF) : (s.unregister k).WF := by
  unfold Ide.unregister
  split
  · rename_i hreg
    have h' := h.setConn (h.registered hreg).1
      (c := { s.conn k with client := { (s.conn k).client with closed := true } }) rfl
    refine ⟨h'.unused, fun {u j} hu => h'.registered ?_⟩
    change Function.update s.clients (s.conn k).client.id none u = some j at hu
    by_cases huk : u = (s.conn k).client.id
    · rw [huk, Function.update_self] at hu
      cases hu
    · rwa [Function.update_of_ne huk] at hu
  · exact h

theorem updateClientRole (h : s.WF) (userID role : String) :
    (s.updateClientRole userID role).WF := by
  unfold Ide.updateClientRole
  split
  · exact h.setConn (h.registered ‹_›).1 rfl
  · exact h

end WF

end Ide

end CollabIde
