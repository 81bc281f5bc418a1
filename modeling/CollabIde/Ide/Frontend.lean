import Mathlib.Data.Finset.Filter
import Mathlib.Data.Finset.Lattice.Lemmas
import CollabIde.Ide.Server

/-!
# The page in the browser

What `useCollabWS.js` does with the document of a page. A Yjs document is a set of edits:
`Y.encodeStateAsUpdate` gives the whole set, or what a state vector lacks of it, and
`Y.applyUpdate` takes the union. A state vector tells only of insertions, so the answer to one
brings every deletion.

A text frame is read twice, by `json.Unmarshal` on the server and by `JSON.parse` in a browser, and
the server passes some frames on as they are. So a frame from a client carries both readings
(`Frame.text`), and a message to a client the second one (`WSMessage.text`); `none` is a frame that
cannot be parsed.
-/

namespace CollabIde

/-- An edit inserts an item or deletes one. -/
class Edit (E : Type) where
  deletes : E → Bool

/-- Numbers as edits: those from 100 on delete. -/
instance : Edit ℕ := ⟨fun e => 100 ≤ e⟩

/-- What `json.Unmarshal` reads from a text frame: the fields that a handler uses. -/
structure IncomingMsg where
  type : String
  action : String := ""
  id : String := ""
  replacement : String := ""
  /-- The `id` of the nested proposal. -/
  proposal : Option String := none
  userID : String := ""
  role : String := ""
  originalText : String := ""
  relStart : String := ""
  relEnd : String := ""
  startLine : Int := 0
  endLine : Int := 0
  toID : String := ""

/-- What a page reads from a text frame. `other` stands for frames that change no state of the
model: participants' cursors, results of runs, unknown types. -/
inductive Text (E : Type) where
  | redirect (port : ℕ)
  | participants (list : List (String × String))
  | proposal (action : String) (proposal : Proposal)
  | roleChange (userID role : String)
  | syncSv (data : Finset E) (sender : String)
  | syncUpdate (data : Finset E)
  | other

/-- A message to a client. -/
inductive WSMessage (E : Type) where
  | binary (update : Finset E)
  | text (t : Option (Text E))

/-- A frame from a client. -/
inductive Frame (E : Type) where
  | binary (update : Finset E)
  | text (m : Option IncomingMsg) (t : Option (Text E))

/-- The edits that a message brings. -/
def WSMessage.edits {E : Type} : WSMessage E → Finset E
  | .binary u => u
  | .text (some (.syncUpdate d)) => d
  | _ => ∅

/-- A page with its document and its connection. -/
structure Tab (E : Type) where
  userID : String
  role : String
  connected : Bool
  doc : Finset E
  receivedDoc : Bool
  docReady : Bool
  timer : Bool
  proposals : List Proposal

namespace Tab

variable {E : Type}

/-- A page that has just opened its connection, with the role that it got when it joined. -/
def load (userID role : String) : Tab E where
  userID := userID
  role := role
  connected := true
  doc := ∅
  receivedDoc := false
  docReady := false
  timer := true
  proposals := []

variable (tab : Tab E)

/-- `doSyncHandshake`. -/
def syncSv : Frame E :=
  .text (some { type := "sync_sv" }) (some (.syncSv tab.doc tab.userID))

/-- The answer to a state vector that lacks `diff`. -/
def syncUpdate (diff : Finset E) (sender : String) : Frame E :=
  .text (some { type := "sync_update", toID := sender }) (some (.syncUpdate diff))

variable [DecidableEq E] [Edit E]

/-- `ws.onmessage`: the new state and the frames that are sent. -/
def onMessage : WSMessage E → Tab E × List (Frame E)
  | .binary u =>
    let tab := { tab with receivedDoc := true, docReady := true, doc := tab.doc ∪ u }
    (tab, [tab.syncSv])
  | .text none => (tab, [])
  | .text (some t) => match t with
    | .redirect port => ({ tab with connected := tab.connected && port = 0 }, [])
    | .proposal action p => match action with
      | "add" => ({ tab with proposals := tab.proposals ++ [p] }, [])
      | "accept" | "reject" => ({ tab with proposals := tab.proposals.filter (·.id ≠ p.id) }, [])
      | _ => (tab, [])
    | .roleChange userID role =>
      ({ tab with role := if userID = tab.userID then role else tab.role }, [])
    | .syncSv data sender =>
      let diff := tab.doc.filter fun e => e ∉ data ∨ Edit.deletes e = true
      (tab, if diff = ∅ then [] else [syncUpdate diff sender])
    | .syncUpdate data => ({ tab with doc := tab.doc ∪ data }, [])
    | .participants _ | .other => (tab, [])

/-- A local change of the document, and what `onUpdate` sends. -/
def edit (es : Finset E) : Tab E × List (Frame E) :=
  let tab := { tab with doc := tab.doc ∪ es }
  (tab, if tab.role = "editor" ∧ tab.connected then [.binary tab.doc] else [])

/-- The timer of a new page: the starter program goes into a document without text. -/
def starter (emptyText : Finset E → Bool) (es : Finset E) : Tab E × List (Frame E) :=
  if tab.receivedDoc = false ∧ tab.role = "editor" ∧ emptyText tab.doc then
    let (tab, frames) := { tab with timer := false }.edit es
    ({ tab with docReady := true }, frames ++ [tab.syncSv])
  else ({ tab with timer := false }, [])

/-! ## What a page's document does -/

theorem onMessage_userID (m : WSMessage E) : (tab.onMessage m).1.userID = tab.userID := by
  unfold onMessage
  repeat' split
  all_goals rfl

/-- A message adds its edits to the document. -/
theorem onMessage_doc (m : WSMessage E) : (tab.onMessage m).1.doc = tab.doc ∪ m.edits := by
  unfold onMessage
  repeat' split
  all_goals first | rfl | exact (Finset.union_empty _).symm

omit [Edit E] in
theorem starter_userID (emptyText : Finset E → Bool) (es : Finset E) :
    (tab.starter emptyText es).1.userID = tab.userID := by
  unfold starter
  split <;> rfl

omit [Edit E] in
theorem starter_connected (emptyText : Finset E → Bool) (es : Finset E) :
    (tab.starter emptyText es).1.connected = tab.connected := by
  unfold starter
  split <;> rfl

/-- What a page does later: its document grows, and a closed connection stays closed. -/
structure Continues (tab' : Tab E) : Prop where
  doc : tab.doc ⊆ tab'.doc
  connected : tab'.connected = true → tab.connected = true

omit [DecidableEq E] [Edit E] in
theorem Continues.refl : tab.Continues tab := ⟨subset_rfl, id⟩

theorem onMessage_continues (m : WSMessage E) (hc : tab.connected = true) :
    tab.Continues (tab.onMessage m).1 :=
  ⟨tab.onMessage_doc m ▸ Finset.subset_union_left, fun _ => hc⟩

omit [Edit E] in
theorem edit_continues (es : Finset E) : tab.Continues (tab.edit es).1 :=
  ⟨Finset.subset_union_left, id⟩

omit [Edit E] in
theorem starter_continues (emptyText : Finset E → Bool) (es : Finset E) :
    tab.Continues (tab.starter emptyText es).1 := by
  unfold starter
  split
  · exact ⟨Finset.subset_union_left, id⟩
  · exact ⟨subset_rfl, id⟩

end Tab

end CollabIde
