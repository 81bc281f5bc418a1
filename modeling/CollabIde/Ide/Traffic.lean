import Mathlib.Algebra.Order.BigOperators.Group.Finset
import Mathlib.Algebra.Ring.Nat
import Mathlib.Algebra.Group.Action.Defs
import Mathlib.Algebra.BigOperators.Group.List.Basic
import Mathlib.Data.Set.Finite.Lattice
import Mathlib.Data.List.Perm.Basic
import CollabIde.Lib.Run
import CollabIde.Ide.Awareness
import CollabIde.Ide.Frontend

/-!
# The traffic of a session

The pages of a session with their documents and their awareness, and the frames between them: what
a page sends of itself (`isStimulus`, with what the server sends when a connection is opened or
ends), and what the frames that are delivered trigger, in any order. A frame has a `weight` that
covers all that it can trigger, and awareness that is sent on is paid for by what its sender has
learned (`Awareness.ignorance`); so a delivery lowers the potential of the session
(`delivery_potential`), and finitely many stimuli lead to finitely many frames (`traffic_dies_out`).
-/

namespace CollabIde

variable {E S : Type}

/-- A frame of a page. -/
inductive PageFrame (E S : Type) where
  | doc (f : Frame E)
  | awareness (update : List (AwarenessEntry S))

/-- A frame for a page. -/
inductive PageMessage (E S : Type) where
  | doc (m : WSMessage E)
  | awareness (update : List (AwarenessEntry S))

structure Page (E S : Type) where
  tab : Tab E
  awareness : Awareness S

namespace Page

variable (page : Page E S)

/-- `onAwarenessChange`, if there are changes. -/
def onAwarenessChange (changes : Changes) : List (PageFrame E S) :=
  if changes.all ≠ [] ∧ page.tab.connected then
    [.awareness (page.awareness.encodeAwarenessUpdate changes.all)]
  else []

def setAwareness (r : Awareness S × Changes) : Page E S × List (PageFrame E S) :=
  let page := { page with awareness := r.1 }
  (page, page.onAwarenessChange r.2)

def setTab (r : Tab E × List (Frame E)) : Page E S × List (PageFrame E S) :=
  ({ page with tab := r.1 }, r.2.map .doc)

def onMessage [DecidableEq E] [Edit E] [DecidableEq S] :
    PageMessage E S → Page E S × List (PageFrame E S)
  | .doc m => page.setTab (page.tab.onMessage m)
  | .awareness update => page.setAwareness (page.awareness.applyAwarenessUpdate update)

end Page

/-- A page with its connection: the role that its handler has read, the frames that are on their
way to the server (`up`) and to the page (`down`). -/
structure Link (E S : Type) where
  page : Page E S
  role : String
  serving : Bool
  up : List (PageFrame E S)
  down : List (PageMessage E S)

/-- A session. `sent` counts the frames that have been sent. -/
structure Room (E S : Type) where
  conn : ℕ → Link E S
  next : ℕ
  clients : String → Option ℕ
  doc : Option (Finset E)
  sent : ℕ

namespace Room

/-- What can happen at a connection. -/
inductive Event (E S : Type) where
  /-- The document for a new connection. -/
  | sendDoc
  /-- `broadcastParticipants`, for a connection that begins or ends. -/
  | listParticipants (full : List ℕ)
  | edit (es : Finset E)
  | starter (es : Finset E)
  /-- A cursor moves, or the user's name is set; or the state stays as it is, and y-protocols' timer
  renews its clock. -/
  | setLocalState (state : S)
  /-- Other clients have not been heard of for a while. -/
  | timeout (clients : List ℕ)
  | leave
  /-- A frame reaches the handler; the queues of the clients in `full` have no room. -/
  | serve (i : ℕ) (full : List ℕ)
  /-- The update of a binary frame is not submitted: the client is redirected. -/
  | refuse (i port : ℕ)
  /-- The handler ends, once the connection is broken. -/
  | fail
  | receive (i : ℕ)

def Event.isStimulus : Event E S → Bool
  | .serve _ _ | .refuse _ _ | .fail | .receive _ => false
  | _ => true

inductive Action (E S : Type) where
  /-- A page is loaded and opens its connection, which is registered; Yjs gives it a new number. -/
  | connect (userID role clientRole : String)
  | on (k : ℕ) (x : Event E S)

def Action.isStimulus : Action E S → Bool
  | .connect _ _ _ => true
  | .on _ x => x.isStimulus

variable (s : Room E S)

def setConn (k : ℕ) (c : Link E S) : Room E S := { s with conn := Function.update s.conn k c }

def userID (k : ℕ) : String := (s.conn k).page.tab.userID

/-- The client has room for a message that its user's connection gets. -/
def Gets (full : List ℕ) (k : ℕ) : Prop :=
  k < s.next ∧ s.clients (s.userID k) = some k ∧ k ∉ full

/-- The receivers of `BroadcastSession`. -/
def Others (k : ℕ) (full : List ℕ) (j : ℕ) : Prop := s.Gets full j ∧ s.userID j ≠ s.userID k

/-- The receiver of `SendRaw`. -/
def IsUser (user : String) (full : List ℕ) (j : ℕ) : Prop :=
  s.Gets full j ∧ s.clients user = some j

instance (full : List ℕ) (k : ℕ) : Decidable (s.Gets full k) := inferInstanceAs (Decidable (_ ∧ _))
instance (k : ℕ) (full : List ℕ) (j : ℕ) : Decidable (s.Others k full j) :=
  inferInstanceAs (Decidable (_ ∧ _))
instance (user : String) (full : List ℕ) (j : ℕ) : Decidable (s.IsUser user full j) :=
  inferInstanceAs (Decidable (_ ∧ _))

/-- The server sends a message to all connections in `target`. -/
def post (target : ℕ → Prop) [DecidablePred target] (m : PageMessage E S) : Room E S :=
  { s with
    conn := fun k => if target k then { s.conn k with down := (s.conn k).down ++ [m] }
      else s.conn k
    sent := s.sent + (List.range s.next).countP fun k => target k }

/-- The page of connection `k` changes and sends frames. -/
def act (k : ℕ) (r : Page E S × List (PageFrame E S)) : Room E S :=
  { s.setConn k { s.conn k with page := r.1, up := (s.conn k).up ++ r.2 } with
    sent := s.sent + r.2.length }

/-- What the handler of connection `k` does with a frame; the frames of other kinds are no traffic
of synchronisation. -/
def handle (k : ℕ) (full : List ℕ) : PageFrame E S → Room E S
  | .doc (.binary u) =>
    if (s.conn k).role = "editor" then
      { s with doc := some u }.post (s.Others k full) (.doc (.binary u))
    else s
  | .doc (.text none _) => s
  | .doc (.text (some m) t) => match m.type with
    | "run_result" | "awareness" | "sync_sv" => s.post (s.Others k full) (.doc (.text t))
    | "sync_update" =>
      if m.toID ≠ "" then s.post (s.IsUser m.toID full) (.doc (.text t)) else s
    | _ => s
  | .awareness update => s.post (s.Others k full) (.awareness update)

/-- The handler of connection `k` returns. -/
def endHandler (k : ℕ) : Room E S :=
  { s.setConn k { s.conn k with serving := false, up := [] } with
    clients := if s.clients (s.userID k) = some k then
      Function.update s.clients (s.userID k) none
    else s.clients }

def participants : List (String × String) :=
  ((List.range s.next).filter fun k => s.clients (s.userID k) = some k).map fun k =>
    (s.userID k, (s.conn k).role)

/-- A page with its connection, right after it is registered. -/
def fresh [DecidableEq S] (k : ℕ) (userID role clientRole : String) (blank : S) : Link E S where
  page := ⟨.load userID role, .new k blank⟩
  role := clientRole
  serving := true
  up := []
  down := []

def unused : Link E S :=
  ⟨⟨{ Tab.load "" "" with connected := false }, ⟨0, fun _ => none, fun _ => none⟩⟩, "", false, [], []⟩

/-- The session has been created. -/
def initial : Room E S := ⟨fun _ => unused, 0, fun _ => none, none, 0⟩

variable [DecidableEq E] [Edit E] [DecidableEq S] (blank : S) (emptyText : Finset E → Bool)

def connect (userID role clientRole : String) : Room E S :=
  { s.setConn s.next (fresh s.next userID role clientRole blank) with
    next := s.next + 1, clients := Function.update s.clients userID (some s.next) }

/-- The page is closed: its awareness is not heard any more. -/
def leave (k : ℕ) : Room E S :=
  let page := (s.conn k).page
  s.act k ({
    tab := { page.tab with connected := false }
    awareness := (page.awareness.removeAwarenessStates [page.awareness.clientID]).1 }, [])

def serve (k i : ℕ) (full : List ℕ) : Option (Room E S) :=
  let c := s.conn k
  if c.serving then
    c.up[i]?.map fun f => (s.setConn k { c with up := c.up.eraseIdx i }).handle k full f
  else none

def refuse (k i port : ℕ) : Option (Room E S) :=
  let c := s.conn k
  if c.serving ∧ c.role = "editor" then
    match c.up[i]? with
    | some (.doc (.binary _)) =>
      some ((s.post (· = k) (.doc (.text (some (.redirect port))))).endHandler k)
    | _ => none
  else none

def receive (k i : ℕ) : Option (Room E S) :=
  let c := s.conn k
  if c.page.tab.connected then
    c.down[i]?.map fun m =>
      (s.setConn k { c with down := c.down.eraseIdx i }).act k (c.page.onMessage m)
  else none

/-- What happens at connection `k`. -/
def event (k : ℕ) : Event E S → Option (Room E S)
  | .sendDoc => s.doc.map fun doc => s.post (· = k) (.doc (.binary doc))
  | .listParticipants full =>
    some (s.post (s.Gets full) (.doc (.text (some (.participants s.participants)))))
  | .edit es =>
    let page := (s.conn k).page
    if page.tab.connected ∧ page.tab.docReady ∧ page.tab.role = "editor" then
      some (s.act k (page.setTab (page.tab.edit es)))
    else none
  | .starter es =>
    let page := (s.conn k).page
    if page.tab.connected ∧ page.tab.timer then
      some (s.act k (page.setTab (page.tab.starter emptyText es)))
    else none
  | .setLocalState state =>
    let page := (s.conn k).page
    some (s.act k (page.setAwareness (page.awareness.setLocalState (some state))))
  | .timeout clients =>
    let page := (s.conn k).page
    if page.awareness.clientID ∈ clients then none
    else some (s.act k (page.setAwareness (page.awareness.removeAwarenessStates clients)))
  | .leave => if (s.conn k).page.tab.connected then some (s.leave k) else none
  | .serve i full => s.serve k i full
  | .refuse i port => s.refuse k i port
  | .fail =>
    if (s.conn k).serving ∧ (s.conn k).page.tab.connected = false then some (s.endHandler k)
    else none
  | .receive i => s.receive k i

def step : Action E S → Option (Room E S)
  | .connect userID role clientRole => some (s.connect blank userID role clientRole)
  | .on k x => if k < s.next then s.event emptyText k x else none

/-- The session as a machine. -/
def machine : Machine (Room E S) (Action E S) where
  init s := s = initial
  step s := s.step blank emptyText

end Room

/-! ## Weights -/

/-- What a message can trigger among `n` connections: a document is answered with a state vector,
which every page answers with what it lacks. -/
def WSMessage.weight (n : ℕ) : WSMessage E → ℕ
  | .binary _ => 1 + (1 + n * (1 + (1 + n * 1)))
  | .text (some (.syncSv _ _)) => 1 + (1 + n * 1)
  | .text _ => 1

def PageMessage.weight (n : ℕ) : PageMessage E S → ℕ
  | .doc m => m.weight n
  | .awareness _ => 1

/-- The message that is passed on for a frame. -/
def PageFrame.message : PageFrame E S → PageMessage E S
  | .doc (.binary u) => .doc (.binary u)
  | .doc (.text _ t) => .doc (.text t)
  | .awareness update => .awareness update

def PageFrame.weight (n : ℕ) (f : PageFrame E S) : ℕ := 1 + n * f.message.weight n

/-- A page's answer weighs less than the message. -/
theorem Tab.onMessage_weight [DecidableEq E] [Edit E] (tab : Tab E) (m : WSMessage E) (n : ℕ) :
    (((tab.onMessage m).2.map (PageFrame.doc (S := S))).map (PageFrame.weight n)).sum <
      m.weight n := by
  have hnone : (([] : List (Frame E)).map (PageFrame.doc (S := S)) |>.map (PageFrame.weight n)).sum <
      1 := Nat.one_pos
  unfold onMessage
  split
  · simp [PageFrame.weight, PageFrame.message, PageMessage.weight, WSMessage.weight, syncSv]
  · exact hnone
  · split
    · exact hnone
    · split <;> exact hnone
    · exact hnone
    · dsimp only
      split
      · simp [WSMessage.weight]
      · simp [PageFrame.weight, PageFrame.message, PageMessage.weight, WSMessage.weight, syncUpdate]
    · exact hnone
    · exact hnone
    · exact hnone

open Finset (range)

/-- What the page may still learn of the clients, if the clocks are at most `T`. -/
def Awareness.ignorance (a : Awareness S) (T : ℕ) : ℕ := ∑ id ∈ range T, (2 * T - a.level id)

/-- A page that has learned something. -/
theorem Awareness.ignorance_lt {a a' : Awareness S} {T id : ℕ} (hb : a'.Bounded T)
    (hmono : ∀ id, a.level id ≤ a'.level id) (hid : id < T) (hlt : a.level id < a'.level id) :
    a'.ignorance T < a.ignorance T := by
  refine Finset.sum_lt_sum (fun id _ => Nat.sub_le_sub_left (hmono id) _)
    ⟨id, Finset.mem_range.mpr hid, ?_⟩
  have := hb.level_le id
  omega

theorem Awareness.ignorance_le {a a' : Awareness S} {T : ℕ}
    (hmono : ∀ id, a.level id ≤ a'.level id) : a'.ignorance T ≤ a.ignorance T :=
  Finset.sum_le_sum fun id _ => Nat.sub_le_sub_left (hmono id) _

/-- The weight of a connection of `n`: what is under way, and what the page may still learn. -/
def Link.weight (c : Link E S) (n T : ℕ) : ℕ :=
  (n + 2) * c.page.awareness.ignorance T + (c.up.map (·.weight n)).sum +
    (c.down.map (·.weight n)).sum + if c.serving then 1 else 0

namespace Room

/-- The weight of a session. -/
def weight (s : Room E S) (T : ℕ) : ℕ := ∑ k ∈ range s.next, (s.conn k).weight s.next T

variable {s s' : Room E S} {T k : ℕ}

theorem post_weight (target : ℕ → Prop) [DecidablePred target] (m : PageMessage E S) :
    (s.post target m).weight T ≤ s.weight T + s.next * m.weight s.next := by
  have hone (k : ℕ) : ((s.post target m).conn k).weight s.next T ≤
      (s.conn k).weight s.next T + m.weight s.next := by
    simp only [post]
    split
    · simp only [Link.weight, List.map_append, List.sum_append, List.map_singleton,
        List.sum_singleton]
      omega
    · exact Nat.le_add_right _ _
  calc (s.post target m).weight T
      ≤ ∑ k ∈ range s.next, ((s.conn k).weight s.next T + m.weight s.next) :=
        Finset.sum_le_sum fun k _ => hone k
    _ = s.weight T + s.next * m.weight s.next := by
        rw [Finset.sum_add_distrib, Finset.sum_const, Finset.card_range, smul_eq_mul]
        rfl

theorem post_sent (target : ℕ → Prop) [DecidablePred target] (m : PageMessage E S) :
    (s.post target m).sent ≤ s.sent + s.next := by
  refine Nat.add_le_add_left ?_ _
  have := List.countP_le_length (p := fun k => decide (target k)) (l := List.range s.next)
  rwa [List.length_range] at this

theorem setConn_conn_self {c : Link E S} : (s.setConn k c).conn k = c := Function.update_self ..

theorem setConn_conn_ne {c : Link E S} {j : ℕ} (h : j ≠ k) : (s.setConn k c).conn j = s.conn j :=
  Function.update_of_ne h ..

theorem setConn_weight (hk : k < s.next) (c : Link E S) :
    (s.setConn k c).weight T + (s.conn k).weight s.next T =
      s.weight T + c.weight s.next T := by
  have hmem := Finset.mem_range.mpr hk
  have hsame : ∑ j ∈ (range s.next).erase k, ((s.setConn k c).conn j).weight s.next T =
      ∑ j ∈ (range s.next).erase k, (s.conn j).weight s.next T := by
    refine Finset.sum_congr rfl fun j hj => ?_
    rw [setConn_conn_ne (Finset.ne_of_mem_erase hj)]
  have hself : ((s.setConn k c).conn k).weight s.next T = c.weight s.next T := by
    rw [setConn_conn_self]
  have hold := Finset.add_sum_erase _ (fun j => (s.conn j).weight s.next T) hmem
  have hnew := Finset.add_sum_erase _ (fun j => ((s.setConn k c).conn j).weight s.next T) hmem
  unfold weight
  change ∑ j ∈ range s.next, ((s.setConn k c).conn j).weight s.next T + _ = _
  rw [← hold, ← hnew, hsame, hself]
  omega

theorem act_weight (hk : k < s.next) (r : Page E S × List (PageFrame E S)) :
    (s.act k r).weight T + (s.conn k).weight s.next T = s.weight T +
      Link.weight { s.conn k with page := r.1, up := (s.conn k).up ++ r.2 } s.next T :=
  setConn_weight hk _

theorem endHandler_weight (hk : k < s.next) :
    (s.endHandler k).weight T + (s.conn k).weight s.next T =
      s.weight T + Link.weight { s.conn k with serving := false, up := [] } s.next T :=
  setConn_weight hk _

end Room

/-- The weight of a list without one of its members. -/
theorem sum_eraseIdx {α : Type} {l : List α} {i : ℕ} {x : α} (h : l[i]? = some x) (g : α → ℕ) :
    (l.map g).sum = g x + ((l.eraseIdx i).map g).sum := by
  obtain ⟨hi, rfl⟩ := List.getElem?_eq_some_iff.mp h
  have hperm := (List.getElem_cons_eraseIdx_perm hi).symm
  rw [(hperm.map g).sum_eq, List.map_cons, List.sum_cons]

/-! ## Bounds on what is under way -/

/-- All clients of an update are below `T`, and so are their clocks. -/
def Within (T : ℕ) (update : List (AwarenessEntry S)) : Prop :=
  ∀ e ∈ update, e.Bounded T ∧ e.clientID < T

def PageFrame.Within (T : ℕ) : PageFrame E S → Prop
  | .doc _ => True
  | .awareness update => CollabIde.Within T update

def PageMessage.Within (T : ℕ) : PageMessage E S → Prop
  | .doc _ => True
  | .awareness update => CollabIde.Within T update

/-- A page and what is under way from it and to it. -/
structure Link.Bounded (c : Link E S) (T : ℕ) : Prop where
  clientID : c.page.awareness.clientID < T
  awareness : c.page.awareness.Bounded T
  up : ∀ f ∈ c.up, f.Within T
  down : ∀ m ∈ c.down, m.Within T

structure Room.Bounded (s : Room E S) (T : ℕ) : Prop where
  next : s.next < T
  conn : ∀ k, (s.conn k).Bounded T

namespace Page

variable {page : Page E S} {T n : ℕ}

/-- What a page says of its changes. -/
theorem setAwareness_within {r : Awareness S × Changes} (hb : r.1.Bounded T)
    (hids : ∀ id ∈ r.2.all, id < T) : ∀ f ∈ (page.setAwareness r).2, f.Within T := by
  intro f hf
  unfold setAwareness onAwarenessChange at hf
  dsimp only at hf
  split at hf
  · rw [List.mem_singleton.mp hf]
    intro e he
    obtain ⟨hbounded, hid⟩ := hb.encode he
    exact ⟨hbounded, hids _ hid⟩
  · cases hf

theorem setTab_within (r : Tab E × List (Frame E)) : ∀ f ∈ (page.setTab r).2, f.Within T := by
  intro f hf
  obtain ⟨f, -, rfl⟩ := List.mem_map.mp hf
  trivial

theorem setAwareness_length (r : Awareness S × Changes) : (page.setAwareness r).2.length ≤ 1 := by
  unfold setAwareness onAwarenessChange
  dsimp only
  split
  · exact le_rfl
  · exact Nat.zero_le 1

variable [DecidableEq E] [Edit E] [DecidableEq S] {m : PageMessage E S}

/-- A page answers a message within the bounds. -/
theorem onMessage_bounded (hid : page.awareness.clientID < T) (hb : page.awareness.Bounded T)
    (hm : m.Within T) : (page.onMessage m).1.awareness.clientID < T ∧
      (page.onMessage m).1.awareness.Bounded T ∧ ∀ f ∈ (page.onMessage m).2, f.Within T := by
  cases m with
  | doc m => exact ⟨hid, hb, setTab_within _⟩
  | awareness update =>
    have hb' := Awareness.applyAwarenessUpdate_bounded hb fun e he => (hm e he).1
    refine ⟨?_, hb', setAwareness_within hb' fun id h => ?_⟩
    · exact (Awareness.applyAwarenessUpdate_clientID (a := page.awareness)).trans_lt hid
    · obtain ⟨e, he, rfl⟩ := (page.awareness.applyAwarenessUpdate_level update).2.1 id h
      exact (hm e he).2

/-- A page answers a message with less than it gets, or it has learned something. -/
theorem onMessage_weight (hb : page.awareness.Bounded T) (hm : m.Within T) :
    (n + 2) * (page.onMessage m).1.awareness.ignorance T +
        (((page.onMessage m).2.map (·.weight n)).sum) <
      (n + 2) * page.awareness.ignorance T + m.weight n := by
  cases m with
  | doc m => exact Nat.add_lt_add_left (Tab.onMessage_weight page.tab m n) _
  | awareness update =>
    obtain ⟨hmono, -, hgrown⟩ :=
      page.awareness.applyAwarenessUpdate_level update
    have hb' := Awareness.applyAwarenessUpdate_bounded hb fun e he => (hm e he).1
    have hle := Nat.mul_le_mul_left (n + 2) (Awareness.ignorance_le (T := T) hmono)
    simp only [onMessage, setAwareness, onAwarenessChange]
    split
    · rename_i hchanges
      obtain ⟨e, he, hlt⟩ := hgrown hchanges.1
      have hign := Awareness.ignorance_lt hb' hmono (hm e he).2 hlt
      have hmul := Nat.mul_le_mul_left (n + 2) (Nat.succ_le_of_lt hign)
      rw [Nat.mul_succ] at hmul
      simp only [List.map_singleton, List.sum_singleton, PageFrame.weight, PageFrame.message,
        PageMessage.weight]
      omega
    · simp only [List.map_nil, List.sum_nil, PageMessage.weight]
      omega

theorem onMessage_length : (page.onMessage m).2.length ≤ 1 := by
  cases m with
  | doc m =>
    rw [onMessage, setTab, List.length_map]
    unfold Tab.onMessage
    split
    · exact le_rfl
    · exact Nat.zero_le 1
    · split
      · exact Nat.zero_le 1
      · split <;> exact Nat.zero_le 1
      · exact Nat.zero_le 1
      · dsimp only
        split
        · exact Nat.zero_le 1
        · exact le_rfl
      all_goals exact Nat.zero_le 1
  | awareness update => exact setAwareness_length _

end Page

namespace Room

variable {s s' : Room E S} {T k : ℕ}

namespace Bounded

theorem post (h : s.Bounded T) {target : ℕ → Prop} [DecidablePred target] {m : PageMessage E S}
    (hm : m.Within T) : (s.post target m).Bounded T := by
  refine ⟨h.next, fun j => ?_⟩
  have hj := h.conn j
  simp only [Room.post]
  split
  · refine ⟨hj.clientID, hj.awareness, hj.up, fun m' hm' => ?_⟩
    rcases List.mem_append.mp hm' with hm' | hm'
    · exact hj.down m' hm'
    · rw [List.mem_singleton.mp hm']
      exact hm
  · exact hj

theorem setConn (h : s.Bounded T) {c : Link E S} (hc : c.Bounded T) : (s.setConn k c).Bounded T := by
  refine ⟨h.next, fun j => ?_⟩
  by_cases hj : j = k
  · rw [hj, setConn_conn_self]
    exact hc
  · rw [setConn_conn_ne hj]
    exact h.conn j

theorem act (h : s.Bounded T) {r : Page E S × List (PageFrame E S)}
    (hid : r.1.awareness.clientID < T) (hb : r.1.awareness.Bounded T)
    (hr : ∀ f ∈ r.2, f.Within T) : (s.act k r).Bounded T := by
  have hc : Link.Bounded { s.conn k with page := r.1, up := (s.conn k).up ++ r.2 } T := by
    refine ⟨hid, hb, fun f hf => ?_, (h.conn k).down⟩
    rcases List.mem_append.mp hf with hf | hf
    · exact (h.conn k).up f hf
    · exact hr f hf
  exact ⟨h.next, (h.setConn hc).conn⟩

theorem endHandler (h : s.Bounded T) : (s.endHandler k).Bounded T := by
  have hc : Link.Bounded { s.conn k with serving := false, up := [] } T :=
    ⟨(h.conn k).clientID, (h.conn k).awareness, nofun, (h.conn k).down⟩
  exact ⟨h.next, (h.setConn hc).conn⟩

end Bounded

/-- A handler passes a frame on, or drops it. -/
theorem handle_cases (s : Room E S) (k : ℕ) (full : List ℕ) (f : PageFrame E S) :
    s.handle k full f = s ∨ ∃ (doc : Option (Finset E)) (target : ℕ → Prop)
      (_ : DecidablePred target), s.handle k full f = { s with doc := doc }.post target f.message := by
  cases f with
  | awareness update => exact .inr ⟨s.doc, _, _, rfl⟩
  | doc f =>
    cases f with
    | binary u =>
      simp only [handle]
      split
      · exact .inr ⟨some u, _, _, rfl⟩
      · exact .inl rfl
    | text m t =>
      cases m with
      | none => exact .inl rfl
      | some m =>
        simp only [handle]
        split
        · exact .inr ⟨s.doc, _, _, rfl⟩
        · exact .inr ⟨s.doc, _, _, rfl⟩
        · exact .inr ⟨s.doc, _, _, rfl⟩
        · split
          · exact .inr ⟨s.doc, _, _, rfl⟩
          · exact .inl rfl
        · exact .inl rfl

/-- What a delivery does: the session gets lighter, and sends at most one frame to each connection
and one more. -/
structure Delivered (T : ℕ) (s s' : Room E S) : Prop where
  next : s'.next = s.next
  bounded : s'.Bounded T
  weight : s'.weight T < s.weight T
  sent : s'.sent ≤ s.sent + (s.next + 1)

theorem Within.message {f : PageFrame E S} (hf : f.Within T) : f.message.Within T := by
  cases f with
  | awareness update => exact hf
  | doc f => cases f <;> trivial

theorem serve_delivered {i : ℕ} {full : List ℕ} (hb : s.Bounded T) (hk : k < s.next)
    (h : s.serve k i full = some s') : Delivered T s s' := by
  unfold serve at h
  dsimp only at h
  split at h
  case isFalse => cases h
  obtain ⟨f, hf, rfl⟩ := Option.map_eq_some_iff.mp h
  obtain ⟨hid, hawareness, hup, hdown⟩ := hb.conn k
  generalize hs₁ : s.setConn k { s.conn k with up := (s.conn k).up.eraseIdx i } = s₁
  have hb₁ : s₁.Bounded T := by
    rw [← hs₁]
    exact hb.setConn ⟨hid, hawareness, fun f hf => hup f (List.mem_of_mem_eraseIdx hf), hdown⟩
  have hnext : s₁.next = s.next := by
    rw [← hs₁]
    rfl
  have hsent : s₁.sent = s.sent := by
    rw [← hs₁]
    rfl
  have hweight : s₁.weight T + f.weight s.next = s.weight T := by
    have hw := setConn_weight (T := T) hk { s.conn k with up := (s.conn k).up.eraseIdx i }
    rw [hs₁] at hw
    have hsum := sum_eraseIdx hf fun f => f.weight s.next
    simp only [Link.weight] at hw
    omega
  obtain heq | ⟨doc, target, _, heq⟩ := s₁.handle_cases k full f
  · rw [heq]
    unfold PageFrame.weight at hweight
    exact ⟨hnext, hb₁, by omega, by omega⟩
  · rw [heq]
    generalize hs₂ : { s₁ with doc := doc } = s₂
    have hb₂ : s₂.Bounded T := by
      rw [← hs₂]
      exact ⟨hb₁.next, hb₁.conn⟩
    have hnext₂ : s₂.next = s.next := by
      rw [← hs₂]
      exact hnext
    have hsent₂ : s₂.sent = s.sent := by
      rw [← hs₂]
      exact hsent
    have hweight₂ : s₂.weight T = s₁.weight T := by
      rw [← hs₂]
      rfl
    have hpost := post_weight (T := T) (s := s₂) target f.message
    have hsent' := post_sent (s := s₂) target f.message
    rw [hweight₂, hnext₂] at hpost
    rw [hsent₂, hnext₂] at hsent'
    unfold PageFrame.weight at hweight
    refine ⟨hnext₂, hb₂.post (Within.message (hup f (List.mem_of_getElem? hf))), ?_, ?_⟩
    · omega
    · omega

/-- The end of a handler drops the frames that it has not read. -/
theorem endHandler_lt (hk : k < s.next) (hs : (s.conn k).serving = true) :
    (s.endHandler k).weight T + ((s.conn k).up.map (·.weight s.next)).sum < s.weight T := by
  have hend := endHandler_weight (s := s) (T := T) hk
  simp only [Link.weight, hs, if_true, List.map_nil, List.sum_nil, Bool.false_eq_true,
    if_false] at hend
  omega

theorem refuse_delivered {i port : ℕ} (hb : s.Bounded T) (hk : k < s.next)
    (h : s.refuse k i port = some s') : Delivered T s s' := by
  unfold refuse at h
  dsimp only at h
  split at h
  case isFalse => cases h
  rename_i hserving
  split at h
  case h_2 => cases h
  rename_i u hf
  cases h
  generalize hm : (PageMessage.doc (.text (some (.redirect port))) : PageMessage E S) = m
  have hpost := post_weight (T := T) (s := s) (· = k) m
  have hsent := post_sent (s := s) (· = k) m
  have hb₁ : (s.post (· = k) m).Bounded T := hb.post (by rw [← hm]; trivial)
  have hconn : (s.post (· = k) m).conn k = { s.conn k with down := (s.conn k).down ++ [m] } := by
    simp only [post, if_true]
  have hend : ((s.post (· = k) m).endHandler k).weight T +
      ((s.conn k).up.map (·.weight s.next)).sum < (s.post (· = k) m).weight T := by
    have hlt := endHandler_lt (s := s.post (· = k) m) (T := T) hk (by rw [hconn]; exact hserving.1)
    rw [hconn] at hlt
    exact hlt
  have hsum := sum_eraseIdx hf fun f => f.weight s.next
  have hone : m.weight s.next = 1 := by
    rw [← hm]
    rfl
  have hbinary : s.next ≤ PageFrame.weight s.next (.doc (.binary u) : PageFrame E S) := by
    simp only [PageFrame.weight, PageFrame.message, PageMessage.weight, WSMessage.weight]
    exact (Nat.le_mul_of_pos_right _ (Nat.add_pos_left Nat.one_pos _)).trans (Nat.le_add_left _ _)
  rw [hone, Nat.mul_one] at hpost
  refine ⟨rfl, hb₁.endHandler, ?_, hsent.trans (Nat.add_le_add_left (Nat.le_succ _) _)⟩
  omega

theorem fail_delivered (hb : s.Bounded T) (hk : k < s.next) (hs : (s.conn k).serving = true) :
    Delivered T s (s.endHandler k) :=
  ⟨rfl, hb.endHandler, (Nat.le_add_right _ _).trans_lt (endHandler_lt hk hs), Nat.le_add_right _ _⟩

theorem receive_delivered [DecidableEq E] [Edit E] [DecidableEq S] {i : ℕ} (hb : s.Bounded T)
    (hk : k < s.next) (h : s.receive k i = some s') : Delivered T s s' := by
  unfold receive at h
  dsimp only at h
  split at h
  case isFalse => cases h
  obtain ⟨m, hm, rfl⟩ := Option.map_eq_some_iff.mp h
  obtain ⟨hid, hawareness, hup, hdown⟩ := hb.conn k
  have hwithin := hdown m (List.mem_of_getElem? hm)
  obtain ⟨hid', hb', hframes⟩ := Page.onMessage_bounded hid hawareness hwithin
  have hlight := Page.onMessage_weight (n := s.next) hawareness hwithin
  have hsum := sum_eraseIdx hm fun m => m.weight s.next
  generalize hc : { s.conn k with down := (s.conn k).down.eraseIdx i } = c
  have hb₁ : (s.setConn k c).Bounded T := by
    rw [← hc]
    exact hb.setConn ⟨hid, hawareness, hup, fun m hm => hdown m (List.mem_of_mem_eraseIdx hm)⟩
  have hw₁ := setConn_weight (T := T) hk c
  have hw₂ : ((s.setConn k c).act k ((s.conn k).page.onMessage m)).weight T + c.weight s.next T =
      (s.setConn k c).weight T + Link.weight { c with
        page := ((s.conn k).page.onMessage m).1
        up := c.up ++ ((s.conn k).page.onMessage m).2 } s.next T := by
    have hw := act_weight (s := s.setConn k c) (T := T) hk ((s.conn k).page.onMessage m)
    rw [setConn_conn_self] at hw
    exact hw
  refine ⟨rfl, hb₁.act hid' hb' hframes, ?_, ?_⟩
  · have hcup : c.up = (s.conn k).up := by rw [← hc]
    have hcdown : c.down = (s.conn k).down.eraseIdx i := by rw [← hc]
    have hcpage : c.page = (s.conn k).page := by rw [← hc]
    have hcserving : c.serving = (s.conn k).serving := by rw [← hc]
    simp only [Link.weight, hcup, hcdown, hcpage, hcserving, List.map_append,
      List.sum_append] at hw₁ hw₂
    omega
  · have hlength := (s.conn k).page.onMessage_length (m := m)
    change s.sent + _ ≤ _
    omega

/-! ## Runs -/

theorem Within.mono {T' : ℕ} {update : List (AwarenessEntry S)} (h : Within T update)
    (hT : T ≤ T') : Within T' update := fun e he =>
  ⟨⟨(h e he).1.clock.trans hT, fun hs => ((h e he).1.offline hs).trans_le hT⟩,
    (h e he).2.trans_le hT⟩

theorem Bounded.mono {T' : ℕ} (h : s.Bounded T) (hT : T ≤ T') : s.Bounded T' := by
  refine ⟨h.next.trans_le hT, fun k => ?_⟩
  obtain ⟨hid, hb, hup, hdown⟩ := h.conn k
  refine ⟨hid.trans_le hT, hb.mono hT, fun f hf => ?_, fun m hm => ?_⟩
  · cases f with
    | doc f => trivial
    | awareness update => exact Within.mono (hup _ hf) hT
  · cases m with
    | doc m => trivial
    | awareness update => exact Within.mono (hdown _ hm) hT

variable [DecidableEq E] [Edit E] [DecidableEq S] {blank : S} {emptyText : Finset E → Bool}
  {x : Action E S}

theorem step_delivered (hb : s.Bounded T) (hx : x.isStimulus = false)
    (h : s.step blank emptyText x = some s') : Delivered T s s' := by
  cases x with
  | connect userID role clientRole => cases hx
  | on k x =>
    simp only [step] at h
    split at h
    case isFalse => cases h
    rename_i hk
    cases x with
    | serve i full => exact serve_delivered hb hk h
    | refuse i port => exact refuse_delivered hb hk h
    | receive i => exact receive_delivered hb hk h
    | fail =>
      simp only [event] at h
      split at h
      · rename_i hserving
        cases h
        exact fail_delivered hb hk hserving.1
      · cases h
    | _ => cases hx

omit [DecidableEq E] [Edit E] [DecidableEq S] in
/-- A page that changes its awareness. -/
theorem Bounded.setAwareness (h : s.Bounded T) {r : Awareness S × Changes}
    (hid : r.1.clientID = (s.conn k).page.awareness.clientID) (hb : r.1.Bounded T)
    (hr : ∀ id ∈ r.2.all, id < T) : (s.act k ((s.conn k).page.setAwareness r)).Bounded T :=
  h.act (hid.trans_lt (h.conn k).clientID) hb (Page.setAwareness_within hb hr)

omit [DecidableEq E] [Edit E] [DecidableEq S] in
theorem Bounded.setTab (h : s.Bounded T) (r : Tab E × List (Frame E)) :
    (s.act k ((s.conn k).page.setTab r)).Bounded T :=
  h.act (h.conn k).clientID (h.conn k).awareness (Page.setTab_within r)

omit [DecidableEq E] [Edit E] in
theorem Bounded.connect (h : s.Bounded T) (userID role clientRole : String) :
    (s.connect blank userID role clientRole).Bounded (T + 2) := by
  have hT := h.mono (Nat.le_add_right T 2)
  have hnew : (Awareness.new s.next blank).Bounded (T + 2) := by
    refine Awareness.setLocalState_bounded (T := T) (.of_clock fun id => ?_) _
    exact (Nat.zero_le s.next).trans_lt h.next
  have hc : Link.Bounded (fresh (E := E) s.next userID role clientRole blank) (T + 2) :=
    ⟨h.next.trans_le (Nat.le_add_right T 2), hnew, nofun, nofun⟩
  exact ⟨Nat.succ_lt_succ (h.next.trans (Nat.lt_succ_self T)), (hT.setConn hc).conn⟩

/-- What is under way stays bounded. -/
theorem step_bounded (hb : s.Bounded T) (h : s.step blank emptyText x = some s') :
    ∃ T', s'.Bounded T' := by
  by_cases hx : x.isStimulus = false
  · exact ⟨T, (step_delivered hb hx h).bounded⟩
  cases x with
  | connect userID role clientRole =>
    cases h
    exact ⟨T + 2, hb.connect userID role clientRole⟩
  | on k x =>
    simp only [step] at h
    split at h
    case isFalse => cases h
    have hawareness := (hb.conn k).awareness
    cases x with
    | sendDoc =>
      obtain ⟨doc, -, rfl⟩ := Option.map_eq_some_iff.mp h
      exact ⟨T, hb.post trivial⟩
    | listParticipants full =>
      cases h
      exact ⟨T, hb.post trivial⟩
    | edit es =>
      simp only [event] at h
      split at h <;> cases h
      exact ⟨T, hb.setTab _⟩
    | starter es =>
      simp only [event] at h
      split at h <;> cases h
      exact ⟨T, hb.setTab _⟩
    | setLocalState state =>
      cases h
      refine ⟨T + 2, (hb.mono (Nat.le_add_right T 2)).setAwareness rfl
        (Awareness.setLocalState_bounded hawareness _) fun id hid => ?_⟩
      rw [Awareness.setLocalState_changes hid]
      exact (hb.conn k).clientID.trans_le (Nat.le_add_right T 2)
    | timeout clients =>
      simp only [event] at h
      split at h <;> cases h
      obtain ⟨N, hN⟩ := clients.toFinset.exists_nat_subset_range
      refine ⟨T + 2 + N, (hb.mono (by omega)).setAwareness
        (Awareness.removeAwarenessStates_clientID clients)
        ((Awareness.removeAwarenessStates_bounded hawareness clients).mono (by omega))
        fun id hid => ?_⟩
      have hmem := hN (List.mem_toFinset.mpr (Awareness.removeAwarenessStates_changes hid))
      have := Finset.mem_range.mp hmem
      omega
    | leave =>
      simp only [event] at h
      split at h <;> cases h
      refine ⟨T + 2, (hb.mono (Nat.le_add_right T 2)).act ?_
        (Awareness.removeAwarenessStates_bounded hawareness _) nofun⟩
      rw [Awareness.removeAwarenessStates_clientID]
      exact (hb.conn k).clientID.trans_le (Nat.le_add_right T 2)
    | _ => exact absurd rfl hx

theorem reachable_bounded (hs : (machine blank emptyText).Reachable s) : ∃ T, s.Bounded T := by
  refine hs.invariant (I := fun s : Room E S => ∃ T, s.Bounded T) (fun s h0 => ?_)
    fun s x s' _ hb _ h => ?_
  · cases h0
    exact ⟨1, Nat.one_pos, fun k => ⟨Nat.one_pos, .of_clock fun _ => Nat.one_pos, nofun, nofun⟩⟩
  · obtain ⟨T, hb⟩ := hb
    exact step_bounded hb h

/-- A bound on the frames that are sent, as long as there are only deliveries. -/
def potential (s : Room E S) (T : ℕ) : ℕ := s.sent + (s.next + 1) * s.weight T

omit [DecidableEq E] [Edit E] [DecidableEq S] in
theorem Delivered.potential (h : Delivered T s s') : s'.potential T ≤ s.potential T := by
  have hmul := Nat.mul_le_mul_left (s.next + 1) (Nat.succ_le_of_lt h.weight)
  have hsent := h.sent
  rw [Nat.mul_succ] at hmul
  rw [Room.potential, Room.potential, h.next]
  omega

/-- **The traffic dies out**: in a run with finitely many stimuli, only finitely many frames are
sent. -/
theorem traffic_dies_out (t : (machine blank emptyText).Trace)
    (ht : {i | (t.action i).isStimulus = true}.Finite) : ∃ B, ∀ i, (t.state i).sent ≤ B := by
  obtain ⟨N, hN⟩ := ht.bddAbove
  obtain ⟨T, hb⟩ := reachable_bounded (t.reachable (N + 1))
  -- from the last stimulus on, the potential does not grow
  have hlater (i : ℕ) : (t.state (N + 1 + i)).Bounded T ∧
      (t.state (N + 1 + i)).potential T ≤ (t.state (N + 1)).potential T := by
    induction i with
    | zero => exact ⟨hb, le_rfl⟩
    | succ i ih =>
      obtain hstep | hsame := t.step (N + 1 + i)
      · have hx : (t.action (N + 1 + i)).isStimulus = false := by
          by_contra hx
          have := hN (Bool.not_eq_false _ ▸ hx : (t.action (N + 1 + i)).isStimulus = true)
          omega
        have hd := step_delivered ih.1 hx hstep
        exact ⟨hd.bounded, hd.potential.trans ih.2⟩
      · rw [← Nat.add_assoc, hsame]
        exact ih
  obtain ⟨B, hB⟩ := ((range (N + 1)).image fun i => (t.state i).sent).exists_nat_subset_range
  refine ⟨B + (t.state (N + 1)).potential T, fun i => ?_⟩
  by_cases hi : i < N + 1
  · have hmem := hB (Finset.mem_image_of_mem _ (Finset.mem_range.mpr hi))
    have := Finset.mem_range.mp hmem
    omega
  · obtain ⟨j, rfl⟩ := Nat.exists_eq_add_of_le (not_lt.mp hi)
    have hj := (hlater j).2
    unfold Room.potential at hj ⊢
    omega

/-- Bob joins Ann, edits and moves his cursor; his state vector is answered, and his cursor is back
after Ann's page has forgotten it. -/
theorem traffic_dies_out_rejoin :
    ∃ t : (machine (E := ℕ) (S := ℕ) 0 fun _ => true).Trace,
      (t.state 32).sent = 22 ∧ ∃ B, ∀ i, (t.state i).sent ≤ B := by
  let xs : List (Action ℕ ℕ) := [
    .connect "ann" "editor" "editor", .on 0 (.listParticipants []), .on 0 (.receive 0),
    .on 0 (.starter {1}), .on 0 (.serve 0 []), .on 0 (.serve 0 []),
    .connect "bob" "editor" "editor", .on 1 .sendDoc, .on 1 (.listParticipants []),
    .on 1 (.receive 0), .on 1 (.edit {2}), .on 1 (.setLocalState 5),
    .on 1 (.serve 0 []), .on 1 (.serve 0 []), .on 1 (.serve 0 []),
    .on 0 (.receive 1), .on 0 (.receive 1), .on 0 (.receive 1), .on 0 (.receive 0),
    .on 0 (.timeout [1]), .on 0 (.serve 0 []), .on 0 (.serve 0 []), .on 0 (.serve 0 []),
    .on 1 (.receive 2), .on 1 (.receive 1), .on 1 (.receive 0), .on 1 (.receive 0),
    .on 1 (.serve 0 []), .on 0 (.receive 0), .on 0 (.serve 0 []), .on 1 (.receive 0), .on 1 .leave]
  have hfinite : {i | (xs.getD i (.on 0 .fail)).isStimulus = true}.Finite := by
    refine (Set.finite_lt_nat xs.length).subset fun i hi => ?_
    by_contra hlen
    have hd : xs.getD i (.on 0 .fail) = .on 0 .fail := by
      rw [List.getD_eq_getElem?_getD, List.getElem?_eq_none (not_lt.mp hlen)]
      rfl
    rw [Set.mem_ofPred_eq, hd] at hi
    cases hi
  exact ⟨.ofList rfl xs (.on 0 .fail), by decide +kernel, traffic_dies_out _ hfinite⟩

end Room

end CollabIde
