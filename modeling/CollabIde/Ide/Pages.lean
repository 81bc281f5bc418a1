import CollabIde.Ide.System

/-!
# What a step does to connections and pages

A connection keeps its user and its session, and the document of its page only grows
(`step_stays`). `Handler` lists what a step does to a handler and to the frames on their way to it
(`step_handler`): these frames come from the page (`step_inbox`), and a `submit` that a step gives a
handler to do comes from a frame that it reads (`step_submit`).
-/

namespace CollabIde

variable {E : Type}

/-- What a connection keeps. -/
structure Conn.Stays (c c' : Conn E) : Prop where
  id : c'.client.id = c.client.id
  code : c'.client.code = c.client.code
  doc : c.tab.doc ⊆ c'.tab.doc

theorem Conn.Stays.refl (c : Conn E) : c.Stays c := ⟨rfl, rfl, subset_rfl⟩

theorem Conn.Stays.trans {c₁ c₂ c₃ : Conn E} (h : c₁.Stays c₂) (h' : c₂.Stays c₃) : c₁.Stays c₃ :=
  ⟨h'.id.trans h.id, h'.code.trans h.code, h.doc.trans h'.doc⟩

/-- What no task and no frame changes. -/
def Conn.page (c : Conn E) : String × String × Tab E := (c.client.id, c.client.code, c.tab)

theorem Conn.Stays.of_page {c c' : Conn E} (h : c'.page = c.page) : c.Stays c' := by
  simp only [Conn.page, Prod.mk.injEq] at h
  exact ⟨h.1, h.2.1, h.2.2 ▸ subset_rfl⟩

namespace Tab

variable [DecidableEq E] [Edit E] (tab : Tab E)

/-- A page answers a message with its state vector, or with what another page may lack. -/
theorem onMessage_frames {m : WSMessage E} {f : Frame E} (h : f ∈ (tab.onMessage m).2) :
    (∃ tab' : Tab E, f = tab'.syncSv) ∨ ∃ diff sender, f = syncUpdate diff sender := by
  unfold onMessage at h
  split at h
  · exact .inl ⟨_, List.mem_singleton.mp h⟩
  · cases h
  · split at h
    · cases h
    · split at h <;> cases h
    · cases h
    · dsimp only at h
      split at h
      · cases h
      · exact .inr ⟨_, _, List.mem_singleton.mp h⟩
    · cases h
    · cases h
    · cases h

/-- A page has an insertion and a deletion, and so has the one that asks. -/
example : ({ (load "ann" "editor" : Tab ℕ) with doc := {1, 100} }.onMessage
    (.text (some (.syncSv {1, 100} "bob")))).2 = [syncUpdate {100} "bob"] := rfl

theorem binary_notMem_onMessage (m : WSMessage E) (u : Finset E) :
    .binary u ∉ (tab.onMessage m).2 := by
  intro h
  obtain ⟨tab', h⟩ | ⟨diff, sender, h⟩ := tab.onMessage_frames h
  · cases h
  · cases h

omit [Edit E] in
theorem edit_frames {es : Finset E} {f : Frame E} (h : f ∈ (tab.edit es).2) :
    f = .binary (tab.doc ∪ es) := by
  unfold edit at h
  dsimp only at h
  split at h
  · exact List.mem_singleton.mp h
  · cases h

omit [Edit E] in
theorem starter_frames {emptyText : Finset E → Bool} {es u : Finset E}
    (h : .binary u ∈ (tab.starter emptyText es).2) : u = tab.doc ∪ es := by
  unfold starter at h
  split at h
  · dsimp only at h
    rcases List.mem_append.mp h with h | h
    · exact Frame.binary.inj (edit_frames _ h)
    · cases List.mem_singleton.mp h
  · cases h

end Tab

/-- The tasks that a frame gives its handler. -/
def Client.frameTasks (c : Client E) : Frame E → List (Task E)
  | .binary u => c.binaryTasks u
  | .text none _ => []
  | .text (some m) _ => match m.type with
    | "proposal" => c.proposalTasks m
    | "role_change" => c.roleChangeTasks m
    | _ => []

/-- A frame gives its handler an update to submit only if it is that update. -/
theorem Client.frameTasks_submit {c : Client E} {f : Frame E} {cmd : Cmd (Finset E)} {last : Bool}
    {d : CRDTUpdateCmd (Finset E)} (hd : d ∈ cmd.update) (h : .submit cmd last ∈ c.frameTasks f) :
    f = .binary d.update := by
  cases f with
  | binary u =>
    change _ ∈ c.binaryTasks u at h
    unfold binaryTasks at h
    split at h
    · simp only [List.mem_cons, Task.submit.injEq, reduceCtorEq, List.not_mem_nil, or_false] at h
      rw [h.1] at hd
      cases hd
      rfl
    · cases h
  | text m t =>
    -- proposals and role changes are no updates
    have hnone : cmd.update = none := by
      cases m with
      | none => cases h
      | some m =>
        simp only [frameTasks] at h
        split at h
        · unfold proposalTasks at h
          repeat' split at h
          all_goals simp at h
          all_goals exact h.1 ▸ rfl
        · unfold roleChangeTasks at h
          repeat' split at h
          all_goals simp at h
          exact h.1 ▸ rfl
        · cases h
    rw [hnone] at hd
    cases hd

/-- What is done before and after the loop is not done for a frame. -/
theorem Client.frameTasks_loop {c : Client E} {f : Frame E} {t : Task E} (h : t ∈ c.frameTasks f) :
    t ≠ .register ∧ t ≠ .sendDoc ∧ t ≠ .unregister := by
  cases f with
  | binary u =>
    change t ∈ c.binaryTasks u at h
    unfold binaryTasks at h
    split at h
    · simp only [List.mem_cons, List.not_mem_nil, or_false] at h
      obtain rfl | rfl := h <;> simp
    · cases h
  | text m t =>
    cases m with
    | none => cases h
    | some m =>
      simp only [frameTasks] at h
      split at h
      · unfold proposalTasks at h
        repeat' split at h
        all_goals simp only [List.mem_cons, List.not_mem_nil, or_false] at h
        all_goals obtain rfl | rfl := h <;> simp
      · unfold roleChangeTasks at h
        repeat' split at h
        all_goals simp only [List.mem_cons, List.not_mem_nil, or_false] at h
        obtain rfl | rfl | rfl | rfl := h <;> simp
      · cases h

namespace Ide

variable {cfg : Config E} {s s' : Ide E} {k : ℕ}

/-- What the page of connection `k` does shows at connection `j`. -/
theorem setTab_conn (r : Tab E × List (Frame E)) (j : ℕ) : (s.setTab k r).conn j =
    if j = k then { s.conn k with tab := r.1, inbox := (s.conn k).inbox ++ r.2 }
    else s.conn j := by
  rw [setTab]
  split
  · rename_i hj
    rw [hj, setConn_conn_self]
  · rename_i hj
    rw [setConn_conn_ne hj]

theorem setTab_client (r : Tab E × List (Frame E)) (j : ℕ) :
    ((s.setTab k r).conn j).client = (s.conn j).client := by
  rw [setTab_conn]
  split
  · rename_i hj
    rw [hj]
  · rfl

theorem setTab_stays {r : Tab E × List (Frame E)} (hr : (s.conn k).tab.doc ⊆ r.1.doc) (j : ℕ) :
    (s.conn j).Stays ((s.setTab k r).conn j) := by
  rw [setTab_conn]
  split
  · rename_i hj
    rw [hj]
    exact ⟨rfl, rfl, hr⟩
  · exact .refl _

theorem handleFrame_page (f : Frame E) (j : ℕ) :
    ((s.handleFrame k f).conn j).page = (s.conn j).page :=
  s.handleFrame_same k Conn.page f j fun _ _ _ => rfl

theorem perform_page (t : Task E) (j : ℕ) :
    ((s.perform cfg k t).conn j).page = (s.conn j).page :=
  s.perform_same cfg k Conn.page t j (fun _ _ _ => rfl) fun _ _ _ _ _ _ => rfl

theorem handleFrame_next (f : Frame E) : (s.handleFrame k f).next = s.next := by
  unfold handleFrame
  repeat' split
  all_goals rfl

theorem perform_next (t : Task E) : (s.perform cfg k t).next = s.next := by
  unfold perform
  split
  case h_3 => split <;> rfl
  case h_10 => unfold updateClientRole; split <;> rfl
  case h_11 => unfold unregister; split <;> rfl
  all_goals rfl

/-- What a frame gives its handler to do. -/
theorem handleFrame_tasks {f : Frame E} (hk : (s.conn k).todo = []) :
    ((s.handleFrame k f).conn k).todo = (s.conn k).client.frameTasks f := by
  have hpost {target : ℕ → Prop} [DecidablePred target] (m : WSMessage E) :
      ((s.post target m).conn k).todo = [] :=
    (post_same Conn.todo (fun _ _ => rfl) k).trans hk
  cases f with
  | binary u => exact congrArg Conn.todo setConn_conn_self
  | text m t =>
    cases m with
    | none => exact hk
    | some m =>
      obtain ⟨type, action, id, replacement, proposal, userID, role, originalText, relStart,
        relEnd, startLine, endLine, toID⟩ := m
      simp only [handleFrame, Client.frameTasks]
      split
      · exact congrArg Conn.todo setConn_conn_self
      · exact congrArg Conn.todo setConn_conn_self
      · exact hpost _
      · exact hpost _
      · exact hpost _
      · split
        · exact hpost _
        · exact hk
      · rename_i hproposal hrole _ _ _ _
        simpa only [hproposal, hrole] using hk

variable [DecidableEq E] [Edit E] {x : Action E}

/-- A connection keeps its user, its session and its page's edits, or it is opened. -/
theorem step_stays_or (h : s.step cfg x = some s') (j : ℕ) : (s.conn j).Stays (s'.conn j) ∨
    j = s.next ∧ ∃ userID code role, x = .connect userID code role ∧
      s'.conn j = .fresh userID code role := by
  cases stepped h with
  | create _ => exact .inl (.refl _)
  | join => exact .inl (.refl _)
  | replicate _ => exact .inl (.refl _)
  | connect _ =>
    by_cases hj : j = s.next
    · subst hj
      exact .inr ⟨rfl, _, _, _, rfl, setConn_conn_self⟩
    · exact .inl (.of_page (congrArg Conn.page (setConn_conn_ne hj)))
  | run _ =>
    exact .inl (.of_page ((perform_page _ j).trans (setConn_same Conn.page (by rfl) j)))
  | refuse _ _ => exact .inl (.of_page (setConn_same Conn.page (by rfl) j))
  | serve _ _ =>
    exact .inl (.of_page ((handleFrame_page _ j).trans (setConn_same Conn.page (by rfl) j)))
  | fail _ _ => exact .inl (.of_page (setConn_same Conn.page (by rfl) j))
  | pump _ _ => exact .inl (.of_page (setConn_same Conn.page (by rfl) j))
  | @receive k m rest _ hc =>
    have hstays : (s.conn j).Stays ((s.setConn k { s.conn k with socket := rest }).conn j) :=
      .of_page (setConn_same Conn.page (by rfl) j)
    refine .inl (hstays.trans (setTab_stays ?_ j))
    rw [setConn_conn_self]
    exact (Tab.onMessage_continues _ _ hc).doc
  | edit _ _ => exact .inl (setTab_stays (Tab.edit_continues _ _).doc j)
  | starter _ => exact .inl (setTab_stays (Tab.starter_continues _ _ _).doc j)
  | send _ => exact .inl (setTab_stays subset_rfl j)
  | hangUp _ => exact .inl (setTab_stays subset_rfl j)

theorem step_stays (h : s.step cfg x = some s') {j : ℕ} (hj : j < s.next) :
    (s.conn j).Stays (s'.conn j) :=
  (step_stays_or h j).resolve_right fun hnew => hj.ne hnew.1

theorem step_next (h : s.step cfg x = some s') : s.next ≤ s'.next := by
  cases stepped h with
  | connect _ => exact Nat.le_succ _
  | @run k t rest _ => exact (perform_next (s := s.setTodo k rest) t).ge
  | @serve k f rest _ _ =>
    exact (handleFrame_next (s := s.setConn k { s.conn k with inbox := rest }) f).ge
  | _ => exact le_rfl

variable (cfg s) in
/-- The frames that the page of connection `j` sends in a step. -/
def sends (x : Action E) (j : ℕ) : List (Frame E) :=
  let c := s.conn j
  match x with
  | .receive k => if k = j then c.socket.head?.elim [] fun m => (c.tab.onMessage m).2 else []
  | .edit k es => if k = j then (c.tab.edit es).2 else []
  | .starter k es => if k = j then (c.tab.starter cfg.emptyText es).2 else []
  | .send k f => if k = j then [f] else []
  | _ => []

variable (cfg s) in
/-- What a step does to the handler of connection `j`, and to the frames on their way to it. -/
inductive Handler (x : Action E) (j : ℕ) (c' : Conn E) : Prop
  | page : c'.serving = (s.conn j).serving → c'.todo = (s.conn j).todo →
    c'.inbox = (s.conn j).inbox ++ s.sends cfg x j → Handler x j c'
  | connect {userID code role : String} : x = .connect userID code role → j = s.next →
    c' = .fresh userID code role → Handler x j c'
  | run {t : Task E} {rest : List (Task E)} : x = .run j → (s.conn j).todo = t :: rest →
    c'.serving = (s.conn j).serving → c'.inbox = (s.conn j).inbox →
    c'.todo = (s.setTodo j rest).follow j t ++ rest → Handler x j c'
  | refuse {cmd : Cmd (Finset E)} {last : Bool} {rest : List (Task E)} : x = .refuse j →
    (s.conn j).todo = .submit cmd last :: rest → cfg.rsm = true →
    c'.serving = !last → c'.inbox = (if last then [] else (s.conn j).inbox) →
    c'.todo = .redirect :: (if last then closingTasks else []) → Handler x j c'
  | serve {f : Frame E} {rest : List (Frame E)} : x = .serve j → s.Idle j →
    (s.conn j).inbox = f :: rest → c'.serving = (s.conn j).serving → c'.inbox = rest →
    c'.todo = (s.conn j).client.frameTasks f → Handler x j c'
  | fail : x = .fail j → s.Idle j → (s.conn j).tab.connected = false → c'.serving = false →
    c'.inbox = [] → c'.todo = closingTasks → Handler x j c'

/-- The handler of a connection and its frames stay if nothing of them is changed. -/
theorem Handler.of_same {c' : Conn E} (h : c'.serving = (s.conn j).serving ∧
      c'.todo = (s.conn j).todo ∧ c'.inbox = (s.conn j).inbox) (hx : s.sends cfg x j = []) :
    Handler cfg s x j c' :=
  .page h.1 h.2.1 (by rw [h.2.2, hx, List.append_nil])

theorem step_handler (h : s.step cfg x = some s') (j : ℕ) : Handler cfg s x j (s'.conn j) := by
  have hset {k : ℕ} {c : Conn E} (hx : s.sends cfg x j = []) (hk : j = k → Handler cfg s x k c) :
      Handler cfg s x j ((s.setConn k c).conn j) := by
    by_cases hj : j = k
    · subst hj
      rw [setConn_conn_self]
      exact hk rfl
    · rw [setConn_conn_ne hj]
      exact .of_same ⟨rfl, rfl, rfl⟩ hx
  have htab {k : ℕ} {r : Tab E × List (Frame E)} (hne : j ≠ k → s.sends cfg x j = [])
      (hk : s.sends cfg x k = r.2) : Handler cfg s x j ((s.setTab k r).conn j) := by
    rw [setTab_conn]
    split
    · rename_i hj
      exact .page (by rw [hj]) (by rw [hj]) (by rw [hj, hk])
    · exact .of_same ⟨rfl, rfl, rfl⟩ (hne ‹_›)
  cases stepped h with
  | create _ => exact .of_same ⟨rfl, rfl, rfl⟩ rfl
  | join => exact .of_same ⟨rfl, rfl, rfl⟩ rfl
  | replicate _ => exact .of_same ⟨rfl, rfl, rfl⟩ rfl
  | connect _ => exact hset rfl fun hj => .connect rfl rfl rfl
  | @run k t rest ht =>
    have hc := s.setTodo k rest |>.perform_same cfg k
      (fun c => (c.serving, c.inbox)) t j (fun _ _ _ => rfl) fun _ _ _ _ _ _ => rfl
    have hc' := hc.trans (setConn_same (fun c => (c.serving, c.inbox)) (by rfl) j)
    simp only [Prod.mk.injEq] at hc'
    by_cases hj : j = k
    · subst hj
      refine .run rfl ht hc'.1 hc'.2 ?_
      rw [perform_todo_self]
      congr 1
      exact congrArg Conn.todo setConn_conn_self
    · refine .of_same ⟨hc'.1, ?_, hc'.2⟩ rfl
      rw [perform_todo_ne _ hj, setTodo, setConn_conn_ne hj]
  | refuse hr ht => exact hset rfl fun hj => .refuse rfl ht hr rfl rfl rfl
  | @serve k f rest hi hin =>
    have hc := handleFrame_same (s.setConn k { s.conn k with inbox := rest }) k
      (fun c => (c.serving, c.inbox)) f j fun _ _ _ => rfl
    simp only [Prod.mk.injEq] at hc
    by_cases hj : j = k
    · subst hj
      rw [setConn_conn_self] at hc
      refine .serve rfl hi hin hc.1 hc.2 ?_
      rw [handleFrame_tasks (by rw [setConn_conn_self]; exact hi.2), setConn_conn_self]
    · rw [setConn_conn_ne hj] at hc
      refine .of_same ⟨hc.1, ?_, hc.2⟩ rfl
      rw [handleFrame_todo_ne f hj, setConn_conn_ne hj]
  | fail hi hc => exact hset rfl fun hj => .fail rfl hi hc rfl rfl rfl
  | pump _ _ => exact hset rfl fun hj => .of_same ⟨rfl, rfl, rfl⟩ rfl
  | @receive k m rest hm hc =>
    have hsame := setConn_same (s := s) (k := k) (c := { s.conn k with socket := rest })
      (fun c => (c.serving, c.todo, c.inbox)) rfl j
    simp only [Prod.mk.injEq] at hsame
    rw [setTab_conn]
    split
    · rename_i hj
      subst hj
      rw [setConn_conn_self]
      exact .page rfl rfl (by simp only [sends, if_true, hm, List.head?_cons, Option.elim_some])
    · rename_i hj
      exact .of_same hsame (if_neg (Ne.symm hj))
  | edit _ _ => exact htab (fun hj => if_neg hj.symm) (if_pos rfl)
  | starter _ => exact htab (fun hj => if_neg hj.symm) (if_pos rfl)
  | send _ => exact htab (fun hj => if_neg hj.symm) (if_pos rfl)
  | hangUp _ => exact htab (fun _ => rfl) rfl

/-- A task is followed by what it brings and by the other tasks. -/
theorem run_todo {j : ℕ} {t : Task E} {rest : List (Task E)}
    (h : s.step cfg (.run j) = some s') (ht : (s.conn j).todo = t :: rest) :
    (s'.conn j).todo = (s.setTodo j rest).follow j t ++ rest := by
  cases stepped h with
  | run ht' =>
    rw [ht] at ht'
    obtain ⟨rfl, rfl⟩ := List.cons.inj ht'
    rw [perform_todo_self]
    congr 1
    exact congrArg Conn.todo setConn_conn_self

/-- A page sends an update when its text is changed, or the client is no page. -/
theorem binary_mem_sends {u : Finset E} {j : ℕ} (h : .binary u ∈ s.sends cfg x j) :
    (∃ es, (x = .edit j es ∨ x = .starter j es) ∧ u = (s.conn j).tab.doc ∪ es) ∨
      x = .send j (.binary u) := by
  cases x with
  | receive k =>
    simp only [sends] at h
    split at h
    · cases hm : (s.conn j).socket with
      | nil =>
        rw [hm] at h
        cases h
      | cons m rest =>
        rw [hm] at h
        exact absurd h (Tab.binary_notMem_onMessage _ _ _)
    · cases h
  | edit k es =>
    simp only [sends] at h
    split at h
    · rename_i hk
      exact .inl ⟨es, .inl (hk ▸ rfl), Frame.binary.inj (Tab.edit_frames _ h)⟩
    · cases h
  | starter k es =>
    simp only [sends] at h
    split at h
    · rename_i hk
      exact .inl ⟨es, .inr (hk ▸ rfl), Tab.starter_frames _ h⟩
    · cases h
  | send k f =>
    simp only [sends] at h
    split at h
    · rename_i hk
      rw [List.mem_singleton.mp h, hk]
      exact .inr rfl
    · cases h
  | _ => cases h

/-- Where an update on its way to a handler comes from. -/
theorem step_inbox (h : s.step cfg x = some s') {j : ℕ} {u : Finset E}
    (hu : .binary u ∈ (s'.conn j).inbox) : .binary u ∈ (s.conn j).inbox ∨
      (∃ es, (x = .edit j es ∨ x = .starter j es) ∧ u = (s.conn j).tab.doc ∪ es) ∨
      x = .send j (.binary u) := by
  cases step_handler h j with
  | page _ _ hin =>
    rw [hin] at hu
    exact (List.mem_append.mp hu).imp_right binary_mem_sends
  | connect _ _ hc =>
    rw [hc] at hu
    cases hu
  | run _ _ _ hin _ => exact .inl (hin ▸ hu)
  | @refuse _ last _ _ _ _ _ hin _ =>
    rw [hin] at hu
    cases last with
    | true => cases hu
    | false => exact .inl hu
  | serve _ _ hf _ hin _ =>
    rw [hin] at hu
    exact .inl (hf ▸ List.mem_cons_of_mem _ hu)
  | fail _ _ _ _ hin _ =>
    rw [hin] at hu
    cases hu

/-- Where a `submit` of an update comes from. -/
theorem step_submit (h : s.step cfg x = some s') {j : ℕ} {cmd : Cmd (Finset E)} {last : Bool}
    {c : CRDTUpdateCmd (Finset E)} (hc : c ∈ cmd.update)
    (ht : .submit cmd last ∈ (s'.conn j).todo) : .submit cmd last ∈ (s.conn j).todo ∨
      .binary c.update ∈ (s.conn j).inbox := by
  cases step_handler h j with
  | page _ htodo _ => exact .inl (htodo ▸ ht)
  | connect _ _ hconn =>
    rw [hconn] at ht
    simp [Conn.fresh, openingTasks] at ht
  | @run t rest _ hrun _ _ htodo =>
    rw [htodo] at ht
    rcases List.mem_append.mp ht with ht | ht
    · cases t <;> simp [follow] at ht
    · exact .inl (hrun ▸ List.mem_cons_of_mem _ ht)
  | @refuse _ last' _ _ _ _ _ _ htodo =>
    rw [htodo] at ht
    cases last' <;> simp [closingTasks] at ht
  | serve _ _ hf _ _ htodo =>
    rw [htodo] at ht
    rw [hf, Client.frameTasks_submit hc ht]
    exact .inr (List.mem_cons_self ..)
  | fail _ _ _ _ _ htodo =>
    rw [htodo] at ht
    simp [closingTasks] at ht

end Ide

end CollabIde
