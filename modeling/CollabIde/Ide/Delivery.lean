import CollabIde.Ide.Pages

/-!
# What a step does to the messages for a page

`Delivery` lists what a step does to a page and to the messages on their way to it
(`step_delivery`): they are what the server puts into the client's queue (`posted`) and what the
handler writes itself.
-/

namespace CollabIde

variable {E : Type}

theorem Conn.trySend_send (c : Conn E) (m : WSMessage E) : (c.trySend m).client.send =
    c.client.send ++ if c.client.send.length < sendCap then [m] else [] := by
  simp only [trySend, Client.trySend]
  split
  · rfl
  · rw [List.append_nil]

namespace Ide

section Posted

variable (s : Ide E)

/-- What a task of connection `k` puts into the queue of connection `j`. -/
def taskPost (k : ℕ) (t : Task E) (j : ℕ) : Option (WSMessage E) :=
  let c := (s.conn k).client
  match t with
  | .broadcast m => if s.Others c.id c.code j then some m else none
  | .broadcastAll m => if s.InSession c.code j then some m else none
  | _ => none

/-- What a frame of connection `k` puts into the queue of connection `j`. -/
def framePost (k : ℕ) (f : Frame E) (j : ℕ) : Option (WSMessage E) :=
  let c := (s.conn k).client
  match f with
  | .text (some m) t => match m.type with
    | "run_result" | "awareness" | "sync_sv" =>
      if s.Others c.id c.code j then some (.text t) else none
    | "sync_update" => if m.toID ≠ "" ∧ s.IsUser m.toID j then some (.text t) else none
    | _ => none
  | _ => none

/-- The message that a step puts into the queue of connection `j`. -/
def posted (x : Action E) (j : ℕ) : Option (WSMessage E) :=
  match x with
  | .run k => (s.conn k).todo.head?.bind fun t => s.taskPost k t j
  | .serve k => (s.conn k).inbox.head?.bind fun f => s.framePost k f j
  | _ => none

end Posted

variable {cfg : Config E} {s s' : Ide E} {k j : ℕ}

section Congr

variable (h : s'.clients = s.clients) (hc : ∀ j, (s'.conn j).client = (s.conn j).client)
include h hc

theorem inSession_congr (code : String) : s'.InSession code j ↔ s.InSession code j := by
  simp only [InSession, Registered, h, hc]

theorem others_congr (id code : String) : s'.Others id code j ↔ s.Others id code j := by
  rw [Others, Others, inSession_congr h hc, hc]

/-- What a task posts depends on the hub and on the clients only. -/
theorem taskPost_congr (t : Task E) : s'.taskPost k t j = s.taskPost k t j := by
  cases t with
  | broadcast m =>
    simp only [taskPost, hc]
    exact if_congr (others_congr h hc _ _) rfl rfl
  | broadcastAll m =>
    simp only [taskPost, hc]
    exact if_congr (inSession_congr h hc _) rfl rfl
  | _ => rfl

theorem framePost_congr (f : Frame E) : s'.framePost k f j = s.framePost k f j := by
  have hothers := others_congr (j := j) h hc (s.conn k).client.id (s.conn k).client.code
  cases f with
  | binary u => rfl
  | text m t =>
    cases m with
    | none => rfl
    | some m =>
      simp only [framePost, hc]
      split
      · exact if_congr hothers rfl rfl
      · exact if_congr hothers rfl rfl
      · exact if_congr hothers rfl rfl
      · exact if_congr (by rw [IsUser, IsUser, h]) rfl rfl
      · rfl

end Congr

theorem post_send {target : ℕ → Prop} [DecidablePred target] {m : WSMessage E} :
    ((s.post target m).conn j).client.send = (s.conn j).client.send ++
      if (s.conn j).client.send.length < sendCap then (if target j then some m else none).toList
      else [] := by
  rw [post_conn]
  split
  · rw [Conn.trySend_send]
    rfl
  · rw [Option.toList_none, ite_self, List.append_nil]

theorem handleFrame_send (f : Frame E) : ((s.handleFrame k f).conn j).client.send =
    (s.conn j).client.send ++ if (s.conn j).client.send.length < sendCap then
      (s.framePost k f j).toList else [] := by
  have hsame {c : Conn E} (hpost : s.framePost k f j = none)
      (h : c.client.send = (s.conn j).client.send) : c.client.send = (s.conn j).client.send ++
        if (s.conn j).client.send.length < sendCap then (s.framePost k f j).toList else [] := by
    rw [hpost, Option.toList_none, ite_self, List.append_nil, h]
  have hset {c : Conn E} (h : c.client.send = (s.conn k).client.send) :
      ((s.setConn k c).conn j).client.send = (s.conn j).client.send :=
    setConn_same (fun c => c.client.send) h j
  cases f with
  | binary u => exact hsame rfl (hset rfl)
  | text m t =>
    cases m with
    | none => exact hsame rfl rfl
    | some m =>
      simp only [handleFrame]
      split
      · rename_i hm
        refine hsame ?_ (hset rfl)
        simp only [framePost, hm]
        rfl
      · rename_i hm
        refine hsame ?_ (hset rfl)
        simp only [framePost, hm]
        rfl
      · rename_i hm
        simp only [framePost, hm]
        exact post_send
      · rename_i hm
        simp only [framePost, hm]
        exact post_send
      · rename_i hm
        simp only [framePost, hm]
        exact post_send
      · rename_i hm
        split
        · rename_i hto
          simp only [framePost, hm, hto, ne_eq, not_false_eq_true, true_and]
          exact post_send
        · rename_i hto
          refine hsame ?_ rfl
          simp only [framePost, hm]
          exact if_neg fun h => hto h.1
      · refine hsame ?_ rfl
        simp only [framePost]

variable (cfg s) in
/-- The messages that a task writes to its connection itself. -/
def written (k : ℕ) : Task E → List (WSMessage E)
  | .sendDoc => ((s.sessions.getDoc (s.conn k).client.code).map .binary).toList
  | .redirect => [.text (some (.redirect cfg.leaderPort))]
  | _ => []

theorem perform_send (t : Task E) : ((s.perform cfg k t).conn j).client.send =
    (s.conn j).client.send ++ if (s.conn j).client.send.length < sendCap then
      (s.taskPost k t j).toList else [] := by
  have hsame {c : Conn E} (hc : c.client.send = (s.conn j).client.send)
      (hp : s.taskPost k t j = none) : c.client.send = (s.conn j).client.send ++
        if (s.conn j).client.send.length < sendCap then (s.taskPost k t j).toList else [] := by
    rw [hp, Option.toList_none, ite_self, List.append_nil, hc]
  have hset {i : ℕ} {c : Conn E} (h : c.client.send = (s.conn i).client.send) :
      ((s.setConn i c).conn j).client.send = (s.conn j).client.send :=
    setConn_same (fun c => c.client.send) h j
  cases t with
  | getRole => exact hsame (hset rfl) rfl
  | register => exact hsame rfl rfl
  | sendDoc =>
    simp only [perform]
    split
    · exact hsame (hset rfl) rfl
    · exact hsame rfl rfl
  | listParticipants => exact hsame (hset rfl) rfl
  | startPump => exact hsame (hset rfl) rfl
  | submit cmd last => exact hsame rfl rfl
  | redirect => exact hsame (hset rfl) rfl
  | broadcast m => exact post_send
  | broadcastAll m => exact post_send
  | updateClientRole userID role =>
    simp only [perform, updateClientRole]
    split
    · exact hsame (hset rfl) rfl
    · exact hsame rfl rfl
  | unregister =>
    simp only [perform, unregister]
    split
    · exact hsame (hset rfl) rfl
    · exact hsame rfl rfl

theorem perform_socket (t : Task E) : ((s.perform cfg k t).conn j).socket =
    (s.conn j).socket ++ if j = k then s.written cfg k t else [] := by
  have hsame {c : Conn E} (hc : c.socket = (s.conn j).socket) (hw : s.written cfg k t = []) :
      c.socket = (s.conn j).socket ++ if j = k then s.written cfg k t else [] := by
    rw [hw, ite_self, List.append_nil, hc]
  have hset {i : ℕ} {c : Conn E} (h : c.socket = (s.conn i).socket) :
      ((s.setConn i c).conn j).socket = (s.conn j).socket :=
    setConn_same Conn.socket h j
  have hwrite {m : WSMessage E} (hw : s.written cfg k t = [m]) :
      ((s.setConn k ((s.conn k).write m)).conn j).socket =
        (s.conn j).socket ++ if j = k then s.written cfg k t else [] := by
    rw [hw]
    by_cases hj : j = k
    · rw [hj, if_pos rfl, setConn_conn_self]
      rfl
    · rw [if_neg hj, setConn_conn_ne hj, List.append_nil]
  cases t with
  | getRole => exact hsame (hset rfl) rfl
  | register => exact hsame rfl rfl
  | sendDoc =>
    simp only [perform]
    split
    · rename_i hdoc
      refine hwrite ?_
      simp only [written, hdoc]
      rfl
    · rename_i hdoc
      refine hsame rfl ?_
      simp only [written, hdoc]
      rfl
  | listParticipants => exact hsame (hset rfl) rfl
  | startPump => exact hsame (hset rfl) rfl
  | submit cmd last => exact hsame rfl rfl
  | redirect => exact hwrite rfl
  | broadcast m => exact hsame (post_same Conn.socket (fun _ _ => rfl) j) rfl
  | broadcastAll m => exact hsame (post_same Conn.socket (fun _ _ => rfl) j) rfl
  | updateClientRole userID role =>
    simp only [perform, updateClientRole]
    split
    · exact hsame (hset rfl) rfl
    · exact hsame rfl rfl
  | unregister =>
    simp only [perform, unregister]
    split
    · exact hsame (hset rfl) rfl
    · exact hsame rfl rfl

variable (cfg s) in
/-- The messages that a step writes to connection `j` itself. -/
def writes (x : Action E) (j : ℕ) : List (WSMessage E) :=
  match x with
  | .run k => if j = k then (s.conn k).todo.head?.elim [] (s.written cfg k) else []
  | _ => []

variable (s) in
/-- The queue of connection `j` without the message that `writePump` takes. -/
def kept (x : Action E) (j : ℕ) : List (WSMessage E) :=
  match x with
  | .pump k => if j = k then (s.conn j).client.send.tail else (s.conn j).client.send
  | _ => (s.conn j).client.send

variable [DecidableEq E] [Edit E] {x : Action E}

variable (cfg s) in
/-- The page of connection `j` after what it does of itself. -/
def acts (x : Action E) (j : ℕ) : Tab E :=
  let tab := (s.conn j).tab
  match x with
  | .edit k es => if j = k then (tab.edit es).1 else tab
  | .starter k es => if j = k then (tab.starter cfg.emptyText es).1 else tab
  | .hangUp k => if j = k then { tab with connected := false } else tab
  | _ => tab

variable (cfg s) in
/-- What a step does to the page of connection `j`, and to the messages on their way to it: the
handler's own messages go before those of the queue. -/
inductive Delivery (x : Action E) (j : ℕ) (c' : Conn E) : Prop
  | page : c'.tab = s.acts cfg x j →
    c'.socket ++ s.kept x j = (s.conn j).socket ++ s.writes cfg x j ++ (s.conn j).client.send →
    c'.client.send = s.kept x j ++
      (if (s.conn j).client.send.length < sendCap then (s.posted x j).toList else []) →
    Delivery x j c'
  | connect {userID code role : String} : x = .connect userID code role → j = s.next →
    c' = .fresh userID code role → Delivery x j c'
  | receive {m : WSMessage E} : x = .receive j → (s.conn j).tab.connected = true →
    (s.conn j).socket = m :: c'.socket → c'.client = (s.conn j).client →
    c'.tab = ((s.conn j).tab.onMessage m).1 → Delivery x j c'

/-- The page of a connection and its messages stay if nothing of them is changed. -/
theorem Delivery.of_same {c' : Conn E} (htab : c'.tab = s.acts cfg x j)
    (hsocket : c'.socket = (s.conn j).socket) (hsend : c'.client.send = (s.conn j).client.send)
    (hkept : s.kept x j = (s.conn j).client.send) (hw : s.writes cfg x j = [])
    (hp : s.posted x j = none) : Delivery cfg s x j c' := by
  refine .page htab ?_ ?_
  · rw [hw, List.append_nil, hsocket, hkept]
  · rw [hp, Option.toList_none, ite_self, List.append_nil, hsend, hkept]

theorem step_delivery (h : s.step cfg x = some s') (j : ℕ) : Delivery cfg s x j (s'.conn j) := by
  have htab {k : ℕ} {r : Tab E × List (Frame E)} (hne : j ≠ k → s.acts cfg x j = (s.conn j).tab)
      (hk : s.acts cfg x k = r.1) (hkept : s.kept x j = (s.conn j).client.send)
      (hw : s.writes cfg x j = []) (hp : s.posted x j = none) :
      Delivery cfg s x j ((s.setTab k r).conn j) := by
    rw [setTab_conn]
    split
    · rename_i hj
      subst hj
      exact .of_same hk.symm rfl rfl hkept hw hp
    · exact .of_same (hne ‹_›).symm rfl rfl hkept hw hp
  have hset {k : ℕ} {c : Conn E} (ht : c.tab = (s.conn k).tab)
      (hsocket : c.socket = (s.conn k).socket)
      (hsend : c.client.send = (s.conn k).client.send) (hacts : s.acts cfg x j = (s.conn j).tab)
      (hkept : s.kept x j = (s.conn j).client.send) (hw : s.writes cfg x j = [])
      (hp : s.posted x j = none) : Delivery cfg s x j ((s.setConn k c).conn j) :=
    .of_same ((setConn_same Conn.tab ht j).trans hacts.symm) (setConn_same Conn.socket hsocket j)
      (setConn_same (fun c => c.client.send) hsend j) hkept hw hp
  cases stepped h with
  | create _ => exact .of_same rfl rfl rfl rfl rfl rfl
  | join => exact .of_same rfl rfl rfl rfl rfl rfl
  | replicate _ => exact .of_same rfl rfl rfl rfl rfl rfl
  | @connect userID code role _ =>
    by_cases hj : j = s.next
    · exact .connect rfl hj (by rw [hj]; exact setConn_conn_self)
    · have hc := setConn_conn_ne (s := s) (c := .fresh userID code role) hj
      exact .of_same (congrArg Conn.tab hc) (congrArg Conn.socket hc)
        (congrArg (fun c => c.client.send) hc) rfl rfl rfl
  | @run k t rest ht =>
    have hsame (i : ℕ) := setConn_same (s := s) (k := k) (c := { s.conn k with todo := rest })
      (fun c => (c.client, c.socket)) rfl i
    simp only [Prod.mk.injEq] at hsame
    have hpage : (((s.setTodo k rest).perform cfg k t).conn j).page = (s.conn j).page :=
      (perform_page t j).trans (setConn_same Conn.page (by rfl) j)
    simp only [Conn.page, Prod.mk.injEq] at hpage
    have hpost : (s.setTodo k rest).taskPost k t j = s.taskPost k t j := by
      refine taskPost_congr ?_ (fun i => (hsame i).1) t
      rfl
    have hwritten : (s.setTodo k rest).written cfg k t = s.written cfg k t := by
      cases t with
      | sendDoc =>
        rw [written, written, setTodo, (hsame k).1]
        rfl
      | _ => rfl
    refine .page hpage.2.2 ?_ ?_
    · rw [perform_socket, hwritten, setTodo, (hsame j).2]
      simp only [kept, writes, ht, List.head?_cons, Option.elim_some]
    · rw [perform_send, hpost, setTodo, (hsame j).1]
      simp only [kept, posted, ht, List.head?_cons, Option.bind_some]
  | refuse _ _ => exact hset rfl rfl rfl rfl rfl rfl rfl
  | @serve k f rest _ hin =>
    have hsame (i : ℕ) := setConn_same (s := s) (k := k) (c := { s.conn k with inbox := rest })
      (fun c => (c.client, c.socket)) rfl i
    simp only [Prod.mk.injEq] at hsame
    have hframe := (handleFrame_same (s.setConn k { s.conn k with inbox := rest }) k
      (fun c => (c.socket, c.tab)) f j fun _ _ _ => rfl).trans
        (setConn_same (fun c => (c.socket, c.tab)) (by rfl) j)
    simp only [Prod.mk.injEq] at hframe
    have hpost : (s.setConn k { s.conn k with inbox := rest }).framePost k f j =
        s.framePost k f j := by
      refine framePost_congr ?_ (fun i => (hsame i).1) f
      rfl
    refine .page hframe.2 ?_ ?_
    · rw [hframe.1]
      simp only [kept, writes, List.append_nil]
    · rw [handleFrame_send, hpost, (hsame j).1]
      simp only [kept, posted, hin, List.head?_cons, Option.bind_some]
  | fail _ _ => exact hset rfl rfl rfl rfl rfl rfl rfl
  | @pump k m rest hm _ =>
    by_cases hj : j = k
    · subst hj
      rw [setConn_conn_self]
      have hkept : s.kept (.pump j) j = rest := by
        rw [kept, if_pos rfl, hm]
        rfl
      refine .page rfl ?_ ?_
      · rw [hkept, hm]
        simp only [writes, List.append_nil, List.append_assoc, List.singleton_append]
      · rw [hkept]
        simp only [posted, Option.toList_none, ite_self, List.append_nil]
    · rw [setConn_conn_ne hj]
      exact .of_same rfl rfl rfl (if_neg hj) rfl rfl
  | @receive k m rest hm hc =>
    rw [setTab_conn]
    split
    · rename_i hj
      subst hj
      rw [setConn_conn_self]
      exact .receive rfl hc hm rfl rfl
    · have hc' := setConn_conn_ne (s := s) (c := { s.conn k with socket := rest }) ‹j ≠ k›
      exact .of_same (congrArg Conn.tab hc') (congrArg Conn.socket hc')
        (congrArg (fun c => c.client.send) hc') rfl rfl rfl
  | edit _ _ => exact htab (fun hj => if_neg hj) (if_pos rfl) rfl rfl rfl
  | starter _ => exact htab (fun hj => if_neg hj) (if_pos rfl) rfl rfl rfl
  | @send k f _ => exact htab (fun _ => rfl) rfl rfl rfl rfl
  | hangUp _ => exact htab (fun hj => if_neg hj) (if_pos rfl) rfl rfl rfl

theorem step_send (h : s.step cfg x = some s') (hj : j < s.next) : (s'.conn j).client.send =
    s.kept x j ++ if (s.conn j).client.send.length < sendCap then (s.posted x j).toList else [] := by
  cases step_delivery h j with
  | page _ _ hsend => exact hsend
  | connect _ hnew _ => exact absurd hnew hj.ne
  | receive hx _ _ hclient _ =>
    rw [hclient, hx]
    simp only [kept, posted, Option.toList_none, ite_self, List.append_nil]

variable (cfg s) in
/-- What a step does to the page of connection `j` and to the messages on their way to it, taken
together. -/
inductive Flow (x : Action E) (j : ℕ) (c' : Conn E) : Prop
  | page : c'.tab = s.acts cfg x j →
    c'.pipeline = (s.conn j).socket ++ s.writes cfg x j ++ (s.conn j).client.send ++
      (if (s.conn j).client.send.length < sendCap then (s.posted x j).toList else []) →
    Flow x j c'
  | receive {m : WSMessage E} : x = .receive j → m ∈ (s.conn j).socket.head? →
    (s.conn j).pipeline = m :: c'.pipeline → c'.tab = ((s.conn j).tab.onMessage m).1 → Flow x j c'

theorem step_flow (h : s.step cfg x = some s') (hj : j < s.next) : Flow cfg s x j (s'.conn j) := by
  cases step_delivery h j with
  | page htab hsocket hsend =>
    refine .page htab ?_
    rw [Conn.pipeline, hsend, ← List.append_assoc, hsocket]
  | connect _ hnew _ => exact absurd hnew hj.ne
  | receive hx _ hm hclient htab =>
    refine .receive hx (by rw [hm]; rfl) ?_ htab
    rw [Conn.pipeline, Conn.pipeline, hm, hclient]
    rfl

end Ide

end CollabIde
