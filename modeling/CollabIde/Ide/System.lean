import CollabIde.Lib.Run
import CollabIde.Ide.Handlers

/-!
# The editor as a machine

The server, its connections and the pages behind them, in any interleaving. `replicate` is a
command that another node has brought through Raft (or an earlier `submit` that has returned
false). `send` is a frame of the client's own making: a page sends its proposals, role changes,
results and cursors so (`Action.honest`), anything else can come from a client that is no page.
-/

namespace CollabIde

variable {E : Type}

/-- A frame that a page sends for its user: a proposal, a role change, a result or a cursor. -/
def Frame.plain : Frame E → Bool
  | .text _ (some (.proposal _ _)) | .text _ (some (.roleChange _ _)) | .text _ (some .other) => true
  | _ => false

/-- A connection right after the upgrade. -/
def Conn.fresh (userID code role : String) : Conn E where
  client := ⟨userID, "", code, [], false⟩
  todo := openingTasks
  serving := true
  pumping := false
  inbox := []
  socket := []
  tab := .load userID role

namespace Ide

inductive Action (E : Type) where
  /-- `POST /create`, with the code that `generateCode` gives. -/
  | create (userID code : String)
  /-- `POST /join`. -/
  | join (userID code : String)
  /-- A page opens its WebSocket, with the role it has from `/create` or `/join`. -/
  | connect (userID code role : String)
  | run (k : ℕ)
  | refuse (k : ℕ)
  | replicate (cmd : Cmd (Finset E))
  | serve (k : ℕ)
  | fail (k : ℕ)
  | pump (k : ℕ)
  | receive (k : ℕ)
  | edit (k : ℕ) (es : Finset E)
  | starter (k : ℕ) (es : Finset E)
  | send (k : ℕ) (f : Frame E)
  | hangUp (k : ℕ)

/-- The client is the page. -/
def Action.honest : Action E → Bool
  | .send _ f => f.plain
  | _ => true

/-- The server has started. -/
def initial : Ide E where
  sessions _ := none
  clients _ := none
  conn _ := .unused
  next := 0
  applied := []

variable [DecidableEq E] [Edit E] (cfg : Config E) (s : Ide E)

/-- A page opens its connection. -/
def connect (userID code role : String) : Option (Ide E) :=
  if userID ≠ "" ∧ code ≠ "" ∧ s.sessions.sessionExists code then
    some { s.setConn s.next (.fresh userID code role) with next := s.next + 1 }
  else none

/-- The page of connection `k` changes and sends frames. -/
def setTab (k : ℕ) (r : Tab E × List (Frame E)) : Ide E :=
  let c := s.conn k
  s.setConn k { c with tab := r.1, inbox := c.inbox ++ r.2 }

/-- The page handles the next message of its socket. -/
def receive (k : ℕ) : Option (Ide E) :=
  let c := s.conn k
  match c.socket with
  | [] => none
  | m :: rest =>
    if c.tab.connected then
      some ((s.setConn k { c with socket := rest }).setTab k (c.tab.onMessage m))
    else none

/-- An editor changes the text. -/
def edit (k : ℕ) (es : Finset E) : Option (Ide E) :=
  let tab := (s.conn k).tab
  if tab.connected ∧ tab.docReady ∧ tab.role = "editor" then some (s.setTab k (tab.edit es))
  else none

def starter (k : ℕ) (es : Finset E) : Option (Ide E) :=
  let tab := (s.conn k).tab
  if tab.connected ∧ tab.timer then some (s.setTab k (tab.starter cfg.emptyText es)) else none

def send (k : ℕ) (f : Frame E) : Option (Ide E) :=
  let c := s.conn k
  if c.tab.connected ∧ c.serving then some (s.setTab k (c.tab, [f])) else none

def hangUp (k : ℕ) : Option (Ide E) :=
  let c := s.conn k
  if c.tab.connected then some (s.setTab k ({ c.tab with connected := false }, [])) else none

def step : Action E → Option (Ide E)
  | .create userID code =>
    if userID = "" then none
    else some (s.doOp (.session ⟨"create", code, userID, "editor"⟩))
  | .join userID code =>
    if s.sessions.sessionExists code then
      some (s.doOp (.session ⟨"join", code, userID, "viewer"⟩))
    else none
  | .connect userID code role => s.connect userID code role
  | .run k => s.runTask cfg k
  | .refuse k => s.refuse cfg k
  | .replicate cmd =>
    if cfg.rsm then some (s.doOp cmd) else none
  | .serve k => s.serve k
  | .fail k => s.fail k
  | .pump k => s.pump k
  | .receive k => s.receive k
  | .edit k es => s.edit k es
  | .starter k es => s.starter cfg k es
  | .send k f => s.send k f
  | .hangUp k => s.hangUp k

/-- The editor as a machine. -/
def machine : Machine (Ide E) (Action E) where
  init s := s = initial
  step := step cfg

/-! ## What a step does -/

/-- Each action with its guard and its result. -/
inductive Stepped : Action E → Ide E → Prop
  | create {userID code : String} : userID ≠ "" →
    Stepped (.create userID code) (s.doOp (.session ⟨"create", code, userID, "editor"⟩))
  | join {userID code : String} :
    Stepped (.join userID code) (s.doOp (.session ⟨"join", code, userID, "viewer"⟩))
  | connect {userID code role : String} : userID ≠ "" →
    Stepped (.connect userID code role)
      { s.setConn s.next (.fresh userID code role) with next := s.next + 1 }
  | run {k : ℕ} {t : Task E} {rest : List (Task E)} : (s.conn k).todo = t :: rest →
    Stepped (.run k) ((s.setTodo k rest).perform cfg k t)
  | refuse {k : ℕ} {cmd : Cmd (Finset E)} {last : Bool} {rest : List (Task E)} :
    cfg.rsm = true → (s.conn k).todo = .submit cmd last :: rest →
    Stepped (.refuse k) (s.setConn k { s.conn k with
      todo := .redirect :: if last then closingTasks else []
      serving := !last
      inbox := if last then [] else (s.conn k).inbox })
  | replicate {cmd : Cmd (Finset E)} : cfg.rsm = true → Stepped (.replicate cmd) (s.doOp cmd)
  | serve {k : ℕ} {f : Frame E} {rest : List (Frame E)} : s.Idle k → (s.conn k).inbox = f :: rest →
    Stepped (.serve k) ((s.setConn k { s.conn k with inbox := rest }).handleFrame k f)
  | fail {k : ℕ} : s.Idle k → (s.conn k).tab.connected = false →
    Stepped (.fail k)
      (s.setConn k { s.conn k with serving := false, inbox := [], todo := closingTasks })
  | pump {k : ℕ} {m : WSMessage E} {rest : List (WSMessage E)} :
    (s.conn k).client.send = m :: rest → (s.conn k).pumping = true →
    Stepped (.pump k) (s.setConn k { s.conn k with
      client := { (s.conn k).client with send := rest }, socket := (s.conn k).socket ++ [m] })
  | receive {k : ℕ} {m : WSMessage E} {rest : List (WSMessage E)} :
    (s.conn k).socket = m :: rest → (s.conn k).tab.connected = true →
    Stepped (.receive k)
      ((s.setConn k { s.conn k with socket := rest }).setTab k ((s.conn k).tab.onMessage m))
  | edit {k : ℕ} {es : Finset E} : (s.conn k).tab.connected = true →
    (s.conn k).tab.role = "editor" →
    Stepped (.edit k es) (s.setTab k ((s.conn k).tab.edit es))
  | starter {k : ℕ} {es : Finset E} : (s.conn k).tab.connected = true →
    Stepped (.starter k es) (s.setTab k ((s.conn k).tab.starter cfg.emptyText es))
  | send {k : ℕ} {f : Frame E} : (s.conn k).tab.connected = true →
    Stepped (.send k f) (s.setTab k ((s.conn k).tab, [f]))
  | hangUp {k : ℕ} : (s.conn k).tab.connected = true →
    Stepped (.hangUp k) (s.setTab k ({ (s.conn k).tab with connected := false }, []))

variable {cfg s}

theorem stepped {s' : Ide E} {x : Action E} (h : s.step cfg x = some s') :
    Stepped cfg s x s' := by
  cases x with
  | create userID code =>
    simp only [step] at h
    split at h
    · cases h
    · cases h; exact .create ‹_›
  | join userID code =>
    simp only [step] at h
    split at h
    · cases h; exact .join
    · cases h
  | connect userID code role =>
    simp only [step, connect] at h
    split at h
    · rename_i hu; cases h; exact .connect hu.1
    · cases h
  | run k =>
    simp only [step, runTask] at h
    split at h
    · cases h
    · cases h; exact .run ‹_›
  | refuse k =>
    simp only [step, refuse] at h
    split at h
    · split at h
      · cases h; exact .refuse ‹_› ‹_›
      · cases h
    · cases h
  | replicate cmd =>
    simp only [step] at h
    split at h
    · cases h; exact .replicate ‹_›
    · cases h
  | serve k =>
    simp only [step, serve] at h
    split at h
    · split at h
      · cases h
      · cases h; exact .serve ‹_› ‹_›
    · cases h
  | fail k =>
    simp only [step, fail] at h
    split at h
    · rename_i hk; cases h; exact .fail hk.1 hk.2
    · cases h
  | pump k =>
    simp only [step, pump] at h
    split at h
    · cases h
    · split at h
      · cases h; exact .pump ‹_› ‹_›
      · cases h
  | receive k =>
    simp only [step, receive] at h
    split at h
    · cases h
    · split at h
      · cases h; exact .receive ‹_› ‹_›
      · cases h
  | edit k es =>
    simp only [step, edit] at h
    split at h
    · rename_i hk; cases h; exact .edit hk.1 hk.2.2
    · cases h
  | starter k es =>
    simp only [step, starter] at h
    split at h
    · rename_i hk; cases h; exact .starter hk.1
    · cases h
  | send k f =>
    simp only [step, send] at h
    split at h
    · rename_i hk; cases h; exact .send hk.1
    · cases h
  | hangUp k =>
    simp only [step, hangUp] at h
    split at h
    · cases h; exact .hangUp ‹_›
    · cases h

/-! ## Every reached state is well formed -/

namespace WF

theorem step {s' : Ide E} {x : Action E} (h : s.WF) (hst : s.step cfg x = some s') : s'.WF := by
  cases stepped hst with
  | create _ => exact ⟨h.unused, h.registered⟩
  | join => exact ⟨h.unused, h.registered⟩
  | replicate _ => exact ⟨h.unused, h.registered⟩
  | @connect userID code role _ =>
    refine ⟨fun k hk => ?_, fun {u k} hu => ?_⟩
    · change s.next + 1 ≤ k at hk
      exact (setConn_conn_ne (by omega)).trans (h.unused k (by omega))
    · obtain ⟨h1, h2⟩ := h.registered hu
      refine ⟨Nat.lt_succ_of_lt h1, ?_⟩
      change ((s.setConn s.next (.fresh userID code role)).conn k).client.id = u
      rw [setConn_conn_ne (by omega), h2]
  | run ht => exact (h.setConn (h.lt_of_todo ht) (by rfl)).perform (h.lt_of_todo ht) _
  | refuse _ ht => exact h.setConn (h.lt_of_todo ht) rfl
  | serve hi _ =>
    have hk := h.lt_of_serving hi.1
    exact (h.setConn hk (by rfl)).handleFrame hk _
  | fail hi _ => exact h.setConn (h.lt_of_serving hi.1) rfl
  | pump hm _ =>
    exact h.setConn (h.lt_of_ne fun hu => by rw [hu] at hm; cases hm) rfl
  | receive _ hc =>
    exact (h.setConn (h.lt_of_connected hc) (by rfl)).setConn (h.lt_of_connected hc) (by rfl)
  | edit hc _ => exact h.setConn (h.lt_of_connected hc) rfl
  | starter hc => exact h.setConn (h.lt_of_connected hc) rfl
  | send hc => exact h.setConn (h.lt_of_connected hc) rfl
  | hangUp hc => exact h.setConn (h.lt_of_connected hc) rfl

theorem of_reach {ok : Ide E → Action E → Prop} (hs : (machine cfg).Reach ok s) : s.WF :=
  hs.invariant (fun s h => by cases h; exact ⟨fun _ _ => rfl, nofun⟩) fun _ _ _ _ h _ => h.step

end WF

variable (s)

/-- In the session no handler is at work, no frame is on its way to one, and no message to a
page that is connected. -/
def Quiet (code : String) : Prop :=
  ∀ k < s.next, (s.conn k).client.code = code → (s.conn k).todo = [] ∧
    ((s.conn k).serving = true → (s.conn k).inbox = []) ∧
    ((s.conn k).tab.connected = true → (s.conn k).pipeline = [])

instance (code : String) : Decidable (s.Quiet code) := inferInstanceAs (Decidable (∀ k < _, _))

end Ide

end CollabIde
