import CollabIde.Ide.EditorsOnly
import CollabIde.Ide.Isolation

/-!
# The remembered role and the replicated one

A handler checks permissions against `Client.Role`, which is read from the sessions once, before
the client is registered, and afterwards changed by `UpdateClientRole` alone. It should be the
replicated role whenever no handler is at work.

A role change first updates the connection that the hub has for the user, and then submits. So the
roles agree in a run in which `UpdateClientRole` finds the only connection of the user
(`Settled.update`), the changes of one role do not overlap each other or a new connection's look at
the role (`Settled.read`), and changes that come from elsewhere, or are refused, are of users who
are not connected (`Settled.settle`): `role_is_replicated`. The code does not take a refused change
back (`refused_role_stays`).
-/

namespace CollabIde

/-- The role that a command gives to a user of a session. -/
def Cmd.givenRole {U : Type} : Cmd U → Option RoleChangeCmd
  | .roleChange c => some c
  | .session c => if c.action = "create" then some ⟨c.code, c.userID, "editor"⟩ else none
  | _ => none

namespace Sessions

variable {U : Type} (ss : Sessions U)

theorem getRole_set {code : String} {st : SessionState U} (code' userID : String) :
    (ss.set code st).getRole code' userID =
      if code' = code then (st.roles userID).getD "viewer" else ss.getRole code' userID := by
  unfold getRole set
  split
  · rename_i h
    rw [h, Function.update_self, Option.bind_some]
  · rename_i h
    rw [Function.update_of_ne h]

theorem getOrCreate_roles (code userID : String) :
    ((ss.getOrCreate code).roles userID).getD "viewer" = ss.getRole code userID := by
  unfold getOrCreate getRole
  cases ss code <;> rfl

/-- The session's state with other fields and the same roles. -/
theorem getRole_set_same {code : String} {st : SessionState U}
    (h : ∀ u, (st.roles u).getD "viewer" = ((ss.getOrCreate code).roles u).getD "viewer")
    (code' userID : String) : (ss.set code st).getRole code' userID = ss.getRole code' userID := by
  rw [getRole_set]
  split
  · rename_i hc
    rw [h, getOrCreate_roles, hc]
  · rfl

/-- The session's state with the role of one user. -/
theorem getRole_set_role {code u role : String} {st : SessionState U}
    (h : st.roles = Function.update (ss.getOrCreate code).roles u (some role))
    (code' userID : String) : (ss.set code st).getRole code' userID =
      if code' = code ∧ userID = u then role else ss.getRole code' userID := by
  rw [getRole_set, h]
  by_cases hc : code' = code
  · by_cases hu : userID = u
    · rw [if_pos hc, if_pos ⟨hc, hu⟩, hu, Function.update_self, Option.getD_some]
    · rw [if_pos hc, if_neg fun h => hu h.2, Function.update_of_ne hu, getOrCreate_roles, hc]
  · rw [if_neg hc, if_neg fun h => hc h.1]

/-- What a command does to roles. -/
theorem getRole_doOp (cmd : Cmd U) (code userID : String) : (ss.doOp cmd).getRole code userID =
    match cmd.givenRole with
    | some c => if code = c.sessionCode ∧ userID = c.userID then c.role else ss.getRole code userID
    | none => ss.getRole code userID := by
  cases cmd with
  | crdtUpdate c => exact getRole_set_same ss (fun _ => by rfl) code userID
  | proposal c =>
    refine getRole_set_same ss (fun u => ?_) code userID
    split <;> rfl
  | roleChange c => exact getRole_set_role ss (by rfl) code userID
  | session c =>
    simp only [doOp, Cmd.givenRole]
    by_cases ha : c.action = "create"
    · simp only [doSession, ha]
      exact getRole_set_role ss (by rfl) code userID
    · simp only [if_neg ha]
      unfold doSession
      split
      · exact absurd ‹_› ha
      · refine getRole_set_same ss (fun u => ?_) code userID
        split
        · rfl
        · rename_i hnone
          dsimp only
          by_cases hu : u = c.userID
          · rw [hu, Function.update_self]
            cases hr : (ss.getOrCreate c.code).roles c.userID with
            | none => rfl
            | some r => rw [hr] at hnone; exact absurd rfl hnone
          · rw [Function.update_of_ne hu]
      · rfl

end Sessions

namespace Ide

variable {E : Type} {cfg : Config E} {s s' : Ide E} {x : Action E} {j k : ℕ}

/-- The handler has read its role and is in its loop (or in a frame of it). -/
def Live (s : Ide E) (j : ℕ) : Prop := (s.conn j).serving = true ∧ .getRole ∉ (s.conn j).todo

/-- The connection is one of the user in the session. -/
def IsFor (s : Ide E) (code userID : String) (j : ℕ) : Prop :=
  (s.conn j).client.code = code ∧ (s.conn j).client.id = userID

instance (s : Ide E) (code userID : String) (j : ℕ) : Decidable (s.IsFor code userID j) :=
  inferInstanceAs (Decidable (_ ∧ _))

/-- The remembered role is the replicated one. -/
def Agrees (s : Ide E) (j : ℕ) : Prop :=
  (s.conn j).client.role = s.sessions.getRole (s.conn j).client.code (s.conn j).client.id

/-! ## The condition -/

/-- The role change that a handler submits next. -/
def submitted : List (Task E) → Option RoleChangeCmd
  | .submit (.roleChange c) _ :: _ => some c
  | _ => none

/-- The role change that is under way at connection `k`: the hub is updated, and the change is to be
submitted. -/
def change (s : Ide E) (k : ℕ) : Option RoleChangeCmd := submitted (s.conn k).todo

/-- No change of the user's role in the session is under way. -/
def Unchanging (s : Ide E) (code userID : String) : Prop :=
  ∀ k < s.next, ∀ c ∈ s.change k, ¬ (code = c.sessionCode ∧ userID = c.userID)

instance (s : Ide E) (code userID : String) : Decidable (s.Unchanging code userID) :=
  inferInstanceAs (Decidable (∀ k < _, _))

/-- The role change of a step that updates no connection first: of `/create`, or from another node;
or the one that is refused. -/
def elsewhere (s : Ide E) : Action E → Option RoleChangeCmd
  | .refuse k => s.change k
  | .create userID code => some ⟨code, userID, "editor"⟩
  | .replicate cmd => cmd.givenRole
  | _ => none

/-- The task that a step does, and the connection whose handler does it. -/
def task (s : Ide E) : Action E → Option (ℕ × Task E)
  | .run k => (s.conn k).todo.head?.map (k, ·)
  | _ => none

/-- The task reads the role. -/
def readsRole : Task E → Bool
  | .getRole => true
  | _ => false

/-- The user and the role of an `UpdateClientRole`. -/
def updatedRole : Task E → Option (String × String)
  | .updateClientRole userID role => some (userID, role)
  | _ => none

/-- Role changes reach the connections of their users. -/
structure Settled (s : Ide E) (x : Action E) : Prop where
  /-- A new connection does not look at a role that is being changed. -/
  read : ∀ t ∈ s.task x, readsRole t.2 = true →
    s.Unchanging (s.conn t.1).client.code (s.conn t.1).client.id
  /-- `UpdateClientRole` finds the only connection of the user in the session, or none that is in
  another session, and the role is not being changed. -/
  update : ∀ t ∈ s.task x, ∀ u ∈ updatedRole t.2,
    (∀ j < s.next, s.Live j → s.IsFor (s.conn t.1).client.code u.1 j → s.clients u.1 = some j) ∧
    (∀ j ∈ s.clients u.1, s.Live j → (s.conn j).client.code = (s.conn t.1).client.code) ∧
    s.Unchanging (s.conn t.1).client.code u.1
  /-- A change that updates no connection, or is refused, is of a user who has no connection in the
  session. -/
  settle : ∀ c ∈ s.elsewhere x, ∀ j < s.next, s.Live j → ¬ s.IsFor c.sessionCode c.userID j

/-! ## The order of tasks -/

/-- A task of no role change. -/
def NoChange : Task E → Prop
  | .updateClientRole _ _ | .submit (.roleChange _) _ | .submit (.session _) _ => False
  | _ => True

/-- A role change is submitted right after `UpdateClientRole`. -/
inductive Changing (code : String) : List (Task E) → Prop
  | plain {ts : List (Task E)} : (∀ t ∈ ts, NoChange t) → Changing code ts
  | update {userID role : String} {last : Bool} {ts : List (Task E)} : (∀ t ∈ ts, NoChange t) →
    Changing code (.updateClientRole userID role ::
      .submit (.roleChange ⟨code, userID, role⟩) last :: ts)
  | submit {userID role : String} {last : Bool} {ts : List (Task E)} : (∀ t ∈ ts, NoChange t) →
    Changing code (.submit (.roleChange ⟨code, userID, role⟩) last :: ts)

/-- What handlers have to do is in order. -/
structure Ordered (s : Ide E) : Prop where
  wf : s.WF
  changing : ∀ k, Changing (s.conn k).client.code (s.conn k).todo
  /-- The role is read first of all. -/
  first : ∀ k, .getRole ∉ (s.conn k).todo.tail
  /-- A handler that has left its loop submits nothing. -/
  ended : ∀ k, (s.conn k).serving = false → ∀ cmd last, .submit cmd last ∉ (s.conn k).todo

theorem submitted_noChange {ts : List (Task E)} (h : ∀ t ∈ ts, NoChange t) :
    submitted ts = none := by
  unfold submitted
  split
  · exact absurd (h _ List.mem_cons_self) id
  · rfl

theorem noChange_nil : ∀ t ∈ ([] : List (Task E)), NoChange t := fun _ h => by cases h

/-- What a frame gives its handler to do. -/
theorem changing_frameTasks (c : Client E) (f : Frame E) : Changing c.code (c.frameTasks f) ∧
    .getRole ∉ c.frameTasks f ∧ submitted (c.frameTasks f) = none := by
  have hplain {ts : List (Task E)} (h : ∀ t ∈ ts, NoChange t ∧ t ≠ .getRole) :
      Changing c.code ts ∧ .getRole ∉ ts ∧ submitted ts = none :=
    ⟨.plain fun t ht => (h t ht).1, fun hmem => (h _ hmem).2 rfl,
      submitted_noChange fun t ht => (h t ht).1⟩
  have hnil : Changing c.code ([] : List (Task E)) ∧ .getRole ∉ ([] : List (Task E)) ∧
      submitted ([] : List (Task E)) = none := hplain fun _ h => by cases h
  cases f with
  | binary u =>
    change Changing c.code (c.binaryTasks u) ∧ .getRole ∉ c.binaryTasks u ∧
      submitted (c.binaryTasks u) = none
    unfold Client.binaryTasks
    split
    · exact hplain (by simp [NoChange])
    · exact hnil
  | text m t =>
    cases m with
    | none => exact hnil
    | some m =>
      simp only [Client.frameTasks]
      split
      · unfold Client.proposalTasks
        repeat' split
        all_goals first
          | exact hnil
          | exact hplain (by simp [NoChange])
      · unfold Client.roleChangeTasks
        repeat' split
        · exact hnil
        · exact hnil
        · exact ⟨.update (by simp [NoChange]), by simp, rfl⟩
      · exact hnil

theorem follow_noChange {t t' : Task E} (h : t' ∈ s.follow k t) : NoChange t' ∧ t' ≠ .getRole := by
  cases t with
  | listParticipants =>
    rw [follow, List.mem_singleton] at h
    rw [h]
    exact ⟨trivial, fun h => by cases h⟩
  | _ => cases h

/-- The tasks behind the first one. -/
theorem Changing.tail {code : String} {t : Task E} {ts : List (Task E)}
    (h : Changing code (t :: ts)) : Changing code (s.follow k t ++ ts) := by
  cases h with
  | plain hts =>
    refine .plain fun t' ht' => ?_
    exact (List.mem_append.mp ht').elim (fun h => (follow_noChange h).1) fun h =>
      hts t' (List.mem_cons_of_mem t h)
  | update hts => exact .submit hts
  | submit hts => exact .plain hts

/-- A change is to be submitted right after `UpdateClientRole`. -/
theorem Changing.submitted_tail {code : String} {t : Task E} {ts : List (Task E)}
    (h : Changing code (t :: ts)) : submitted (s.follow k t ++ ts) =
      (updatedRole t).map fun u => ⟨code, u.1, u.2⟩ := by
  cases h with
  | plain hts =>
    have hplain : ∀ t' ∈ s.follow k t ++ ts, NoChange t' := fun t' ht' =>
      (List.mem_append.mp ht').elim (fun h => (follow_noChange h).1) fun h =>
        hts t' (List.mem_cons_of_mem t h)
    have ht := hts t List.mem_cons_self
    rw [submitted_noChange hplain]
    cases t with
    | updateClientRole userID role => exact absurd ht id
    | _ => rfl
  | update hts => rfl
  | submit hts => exact submitted_noChange hts

namespace Ordered

theorem initial : (initial : Ide E).Ordered where
  wf := ⟨fun _ _ => rfl, nofun⟩
  changing _ := .plain noChange_nil
  first _ := List.not_mem_nil
  ended _ _ _ _ := List.not_mem_nil

variable [DecidableEq E] [Edit E]

theorem step_changing (h : s.Ordered) (hst : s.step cfg x = some s') (j : ℕ) :
    Changing (s'.conn j).client.code (s'.conn j).todo := by
  have hcode (hj : j < s.next) := (step_stays hst hj).code
  cases step_handler hst j with
  | page _ htodo _ =>
    rw [htodo]
    by_cases hj : j < s.next
    · exact hcode hj ▸ h.changing j
    · rw [h.wf.unused j (not_lt.mp hj)]
      exact .plain noChange_nil
  | connect _ _ hc =>
    rw [hc]
    exact .plain (by simp [Conn.fresh, openingTasks, NoChange])
  | run _ ht _ _ htodo =>
    rw [htodo, hcode (h.wf.lt_of_todo ht)]
    exact (ht ▸ h.changing j : Changing _ (_ :: _)).tail
  | @refuse cmd last rest _ _ _ _ _ htodo =>
    rw [htodo]
    exact .plain (by cases last <;> simp [closingTasks, NoChange])
  | serve _ hi _ _ _ htodo =>
    rw [htodo, hcode (h.wf.lt_of_serving hi.1)]
    exact (changing_frameTasks _ _).1
  | fail _ _ _ _ _ htodo =>
    rw [htodo]
    exact .plain (by simp [closingTasks, NoChange])

theorem step_first (h : s.Ordered) (hst : s.step cfg x = some s') (j : ℕ) :
    .getRole ∉ (s'.conn j).todo.tail := by
  cases step_handler hst j with
  | page _ htodo _ => exact htodo ▸ h.first j
  | connect _ _ hc =>
    rw [hc]
    simp [Conn.fresh, openingTasks]
  | run _ ht _ _ htodo =>
    rw [htodo]
    intro hmem
    rcases List.mem_append.mp (List.mem_of_mem_tail hmem) with hmem | hmem
    · exact (follow_noChange hmem).2 rfl
    · exact h.first j (by rw [ht]; exact hmem)
  | @refuse cmd last rest _ _ _ _ _ htodo =>
    rw [htodo]
    cases last <;> simp [closingTasks]
  | serve _ _ _ _ _ htodo =>
    rw [htodo]
    exact fun hmem => (changing_frameTasks _ _).2.1 (List.mem_of_mem_tail hmem)
  | fail _ _ _ _ _ htodo =>
    rw [htodo]
    simp [closingTasks]

theorem step_ended (h : s.Ordered) (hst : s.step cfg x = some s') (j : ℕ)
    (hj : (s'.conn j).serving = false) (cmd : Cmd (Finset E)) (last : Bool) :
    .submit cmd last ∉ (s'.conn j).todo := by
  cases step_handler hst j with
  | page hs htodo _ =>
    rw [htodo]
    exact h.ended j (hs ▸ hj) cmd last
  | connect _ _ hc =>
    rw [hc]
    simp [Conn.fresh, openingTasks]
  | @run t rest _ ht hs _ htodo =>
    rw [htodo]
    intro hmem
    rcases List.mem_append.mp hmem with hmem | hmem
    · cases t with
      | listParticipants => simp [follow] at hmem
      | _ => cases hmem
    · exact h.ended j (hs ▸ hj) cmd last (by rw [ht]; exact List.mem_cons_of_mem _ hmem)
  | @refuse cmd' last' rest _ _ _ _ _ htodo =>
    rw [htodo]
    cases last' <;> simp [closingTasks]
  | serve _ hi _ hs _ _ =>
    rw [hs, hi.1] at hj
    cases hj
  | fail _ _ _ _ _ htodo =>
    rw [htodo]
    simp [closingTasks]

theorem step (h : s.Ordered) (hst : s.step cfg x = some s') : s'.Ordered :=
  ⟨h.wf.step hst, h.step_changing hst, h.step_first hst, h.step_ended hst⟩

end Ordered

/-! ## What a step does to roles -/

theorem task_run {t : Task E} {rest : List (Task E)} (ht : (s.conn k).todo = t :: rest) :
    s.task (.run k) = some (k, t) := by
  rw [task, ht]
  rfl

theorem task_eq {t : Task E} (h : s.task x = some (k, t)) :
    x = .run k ∧ ∃ rest, (s.conn k).todo = t :: rest := by
  cases x with
  | run i =>
    obtain ⟨t', ht, hk⟩ := Option.map_eq_some_iff.mp h
    cases hk
    exact ⟨rfl, List.head?_eq_some_iff.mp ht⟩
  | _ => cases h

theorem change_of_todo {c : RoleChangeCmd} (h : s.change k = some c) :
    ∃ last rest, (s.conn k).todo = .submit (.roleChange c) last :: rest := by
  unfold change submitted at h
  split at h
  · cases h
    exact ⟨_, _, ‹_›⟩
  · cases h

section Steps

variable [DecidableEq E] [Edit E] (h : s.Ordered) (hst : s.step cfg x = some s')
include h hst

/-- A handler gets into its loop when it reads its role. -/
theorem live_of_step (hj : s'.Live j) : s.Live j ∨ s.task x = some (j, .getRole) := by
  obtain ⟨hserving, hmem⟩ := hj
  cases step_handler hst j with
  | page hs htodo _ => exact .inl ⟨hs ▸ hserving, htodo ▸ hmem⟩
  | connect _ _ hc =>
    rw [hc] at hmem
    exact absurd (List.mem_cons_self ..) hmem
  | @run t rest hx ht hs _ htodo =>
    rw [htodo] at hmem
    by_cases hread : t = .getRole
    · rw [hx, task_run ht, hread]
      exact .inr rfl
    · refine .inl ⟨hs ▸ hserving, fun hold => ?_⟩
      rw [ht] at hold
      obtain heq | hold := List.mem_cons.mp hold
      · exact hread heq.symm
      · exact hmem (List.mem_append_right _ hold)
  | @refuse cmd last rest hx ht _ hs _ htodo =>
    refine .inl ⟨Bool.not_eq_false _ ▸ fun hend => ?_, fun hold => ?_⟩
    · exact h.ended j hend cmd last (by rw [ht]; exact List.mem_cons_self ..)
    · rw [ht] at hold
      obtain heq | hold := List.mem_cons.mp hold
      · cases heq
      · exact h.first j (by rw [ht]; exact hold)
  | serve _ hi _ _ _ _ => exact .inl ⟨hi.1, by rw [hi.2]; exact List.not_mem_nil⟩
  | fail _ _ _ hs _ _ =>
    rw [hs] at hserving
    cases hserving

/-- A change gets under way with `UpdateClientRole`. -/
theorem change_of_step {c : RoleChangeCmd} (hc : s'.change j = some c) : s.change j = some c ∨
    s.task x = some (j, .updateClientRole c.userID c.role) ∧
      c.sessionCode = (s.conn j).client.code := by
  unfold change at hc
  cases step_handler hst j with
  | page _ htodo _ =>
    rw [htodo] at hc
    exact .inl hc
  | connect _ _ hnew =>
    rw [hnew] at hc
    cases hc
  | @run t rest hx ht _ _ htodo =>
    rw [htodo, (ht ▸ h.changing j : Changing _ (_ :: _)).submitted_tail] at hc
    cases t with
    | updateClientRole userID role =>
      cases hc
      exact .inr ⟨hx ▸ task_run ht, rfl⟩
    | _ => cases hc
  | refuse _ _ _ _ _ htodo =>
    rw [htodo] at hc
    cases hc
  | serve _ _ _ _ _ htodo =>
    rw [htodo, (changing_frameTasks _ _).2.2] at hc
    cases hc
  | fail _ _ _ _ _ htodo =>
    rw [htodo] at hc
    cases hc

/-- A change is under way until it is submitted or refused. -/
theorem change_stays {c : RoleChangeCmd} (hc : s.change j = some c) : s'.change j = some c ∨
    x = .refuse j ∨ ∃ last, s.task x = some (j, .submit (.roleChange c) last) := by
  obtain ⟨last, rest, ht⟩ := change_of_todo hc
  cases step_handler hst j with
  | page _ htodo _ => exact .inl (by rw [change, htodo, ht]; rfl)
  | connect _ hj _ =>
    rw [h.wf.unused j hj.ge] at ht
    cases ht
  | run hx _ _ _ _ => exact .inr (.inr ⟨last, hx ▸ task_run ht⟩)
  | refuse hx _ _ _ _ _ => exact .inr (.inl hx)
  | serve _ hi _ _ _ _ =>
    rw [hi.2] at ht
    cases ht
  | fail _ hi _ _ _ _ =>
    rw [hi.2] at ht
    cases ht

/-- `UpdateClientRole` gets a change under way. -/
theorem change_after_update {userID role : String}
    (ht : s.task x = some (k, .updateClientRole userID role)) :
    s'.change k = some ⟨(s.conn k).client.code, userID, role⟩ := by
  obtain ⟨rfl, rest, ht⟩ := task_eq ht
  rw [change, run_todo hst ht, (ht ▸ h.changing k : Changing _ (_ :: _)).submitted_tail]
  rfl

end Steps

/-- A remembered role stays, or it is read, or it is updated through the hub. -/
theorem role_of_step [DecidableEq E] [Edit E] (hst : s.step cfg x = some s') (hj : j < s.next) :
    (s'.conn j).client.role = (s.conn j).client.role ∨
    s.task x = some (j, .getRole) ∨ ∃ k userID role,
      s.task x = some (k, .updateClientRole userID role) ∧ s.clients userID = some j := by
  have hrole {k : ℕ} {c : Conn E} (hc : c.client.role = (s.conn k).client.role) :=
    setConn_same (fun c => c.client.role) hc j
  cases stepped hst with
  | connect _ => exact .inl (congrArg (fun c : Conn E => c.client.role) (setConn_conn_ne hj.ne))
  | @run k t rest ht =>
    have hrest : ((s.setTodo k rest).conn j).client.role = (s.conn j).client.role := hrole (by rfl)
    cases t with
    | getRole =>
      by_cases hjk : j = k
      · subst hjk
        exact .inr (.inl (task_run ht))
      · exact .inl ((congrArg (fun c : Conn E => c.client.role) (setConn_conn_ne hjk)).trans hrest)
    | updateClientRole userID role =>
      by_cases hu : s.clients userID = some j
      · exact .inr (.inr ⟨k, userID, role, task_run ht, hu⟩)
      · exact .inl ((updateClientRole_role_ne (s := s.setTodo k rest) hu).trans hrest)
    | _ =>
      refine .inl (Eq.trans ?_ hrest)
      refine perform_same cfg (s.setTodo k rest) k (fun c => c.client.role) _ j
        (fun h => ?_) fun _ _ _ _ _ _ => rfl
      obtain h | ⟨_, _, h⟩ := h
      · cases h
      · cases h
  | refuse _ _ => exact .inl (hrole (by rfl))
  | serve _ _ =>
    exact .inl ((handleFrame_same _ _ (fun c => c.client.role) _ j fun _ _ _ => rfl).trans
      (hrole (by rfl)))
  | fail _ _ => exact .inl (hrole (by rfl))
  | pump _ _ => exact .inl (hrole (by rfl))
  | receive _ _ =>
    exact .inl ((congrArg Client.role (setTab_client _ j)).trans (hrole (by rfl)))
  | edit _ _ => exact .inl (congrArg Client.role (setTab_client _ j))
  | starter _ => exact .inl (congrArg Client.role (setTab_client _ j))
  | send _ => exact .inl (congrArg Client.role (setTab_client _ j))
  | hangUp _ => exact .inl (congrArg Client.role (setTab_client _ j))
  | _ => exact .inl rfl

theorem role_after_read [DecidableEq E] [Edit E] (hst : s.step cfg x = some s')
    (ht : s.task x = some (j, .getRole)) : (s'.conn j).client.role =
      s.sessions.getRole (s.conn j).client.code (s.conn j).client.id := by
  obtain ⟨rfl, rest, ht⟩ := task_eq ht
  cases stepped hst with
  | run ht' =>
    rw [ht] at ht'
    cases ht'
    simp only [perform, setTodo, setConn_conn_self, setConn_sessions]

theorem role_after_update [DecidableEq E] [Edit E] {userID role : String}
    (hst : s.step cfg x = some s') (ht : s.task x = some (k, .updateClientRole userID role))
    (hu : s.clients userID = some j) :
    (s'.conn j).client.role = role := by
  obtain ⟨rfl, rest, ht⟩ := task_eq ht
  cases stepped hst with
  | run ht' =>
    rw [ht] at ht'
    cases ht'
    exact updateClientRole_role hu

/-- The role change that a step makes, if any. -/
def given (s : Ide E) (x : Action E) : Option RoleChangeCmd := (s.command x).bind Cmd.givenRole

theorem getRole_of_step [DecidableEq E] [Edit E] (hst : s.step cfg x = some s')
    (code userID : String) :
    s'.sessions.getRole code userID = match s.given x with
    | some c => if code = c.sessionCode ∧ userID = c.userID then c.role
      else s.sessions.getRole code userID
    | none => s.sessions.getRole code userID := by
  cases step_applies hst with
  | none hs _ hcmd => rw [hs, given, hcmd, Option.bind_none]
  | some cmd hs _ hcmd =>
    rw [hs, given, hcmd, Option.bind_some]
    exact s.sessions.getRole_doOp cmd code userID

theorem Ordered.change_lt (h : s.Ordered) {c : RoleChangeCmd} (hc : s.change k = some c) :
    k < s.next := by
  obtain ⟨_, _, ht⟩ := change_of_todo hc
  exact h.wf.lt_of_todo ht

/-- A handler's role change is one that is under way. -/
theorem Ordered.given (h : s.Ordered) {c : RoleChangeCmd} (hc : s.given x = some c) :
    c ∈ s.elsewhere x ∨ ∃ k last, s.task x = some (k, .submit (.roleChange c) last) ∧
      s.change k = some c := by
  obtain ⟨cmd, hcmd, hc⟩ := Option.bind_eq_some_iff.mp hc
  cases x with
  | create userID code =>
    cases hcmd
    exact .inl hc
  | join userID code =>
    cases hcmd
    cases hc
  | replicate _ =>
    cases hcmd
    exact .inl hc
  | run k =>
    simp only [command] at hcmd
    split at hcmd
    · rename_i last rest ht
      cases hcmd
      have hchanging : Changing _ (.submit cmd last :: rest) := ht ▸ h.changing k
      cases hchanging with
      | plain hts =>
        have hplain := hts _ List.mem_cons_self
        cases cmd with
        | roleChange _ => exact absurd hplain id
        | session _ => exact absurd hplain id
        | _ => cases hc
      | submit _ =>
        cases hc
        exact .inr ⟨k, last, task_run ht, by rw [change, ht]; rfl⟩
    · cases hcmd
  | _ => cases hcmd

/-! ## The invariant -/

/-- Each remembered role is the replicated one, or that of a change under way. -/
structure Tracks (s : Ide E) : Prop where
  /-- A change that is under way has reached the connections of its user. -/
  updated : ∀ k, ∀ c ∈ s.change k, ∀ j, s.Live j → s.IsFor c.sessionCode c.userID j →
    (s.conn j).client.role = c.role
  agrees : ∀ j, s.Live j → (∀ k, ∀ c ∈ s.change k, ¬ s.IsFor c.sessionCode c.userID j) → s.Agrees j
  /-- Changes of one role do not overlap. -/
  single : ∀ k k', ∀ c ∈ s.change k, ∀ c' ∈ s.change k', c.sessionCode = c'.sessionCode →
    c.userID = c'.userID → k = k'

namespace Tracks

variable [DecidableEq E] [Edit E] (h : s.Tracks) (ho : s.Ordered) (hx : s.Settled x)
  (hst : s.step cfg x = some s')

omit [DecidableEq E] [Edit E] in
/-- `UpdateClientRole` updates a connection in its loop only with a change of its role. -/
theorem updates (ho : s.Ordered) (hx : s.Settled x) {userID role : String}
    (ht : s.task x = some (k, .updateClientRole userID role)) (hu : s.clients userID = some j)
    (hj : s.Live j) : s.IsFor (s.conn k).client.code userID j :=
  ⟨(hx.update _ ht _ rfl).2.1 j hu hj, (ho.wf.registered hu).2⟩

include h ho hx hst

theorem step_single {k k' : ℕ} {c c' : RoleChangeCmd} (hc : c ∈ s'.change k)
    (hc' : c' ∈ s'.change k') (hcode : c.sessionCode = c'.sessionCode)
    (hid : c.userID = c'.userID) : k = k' := by
  obtain hold | ⟨ht, hk⟩ := change_of_step ho hst hc
  · obtain hold' | ⟨ht', hk'⟩ := change_of_step ho hst hc'
    · exact h.single k k' c hold c' hold' hcode hid
    · exact absurd ⟨hk'.symm.trans hcode.symm, hid.symm⟩
        ((hx.update _ ht' _ rfl).2.2 k (ho.change_lt hold) c hold)
  · obtain hold' | ⟨ht', hk'⟩ := change_of_step ho hst hc'
    · exact absurd ⟨hk.symm.trans hcode, hid⟩
        ((hx.update _ ht _ rfl).2.2 k' (ho.change_lt hold') c' hold')
    · exact (Prod.mk.inj (Option.some.inj (ht.symm.trans ht'))).1

theorem step_updated {c : RoleChangeCmd} (hc : c ∈ s'.change k) (hj : s'.Live j)
    (hfor : s.IsFor c.sessionCode c.userID j) : (s'.conn j).client.role = c.role := by
  obtain hold | hread := live_of_step ho hst hj
  · have hlt := ho.wf.lt_of_serving hold.1
    obtain hk | ⟨ht, hcode⟩ := change_of_step ho hst hc
    · obtain hrole | hread | ⟨i, u, role, ht, hu⟩ := role_of_step hst hlt
      · exact hrole.trans (h.updated k c hk j hold hfor)
      · obtain ⟨-, rest, ht⟩ := task_eq hread
        exact absurd (ht ▸ List.mem_cons_self) hold.2
      · have hi := updates ho hx ht hu hold
        exact absurd ⟨hi.1.symm.trans hfor.1, hi.2.symm.trans hfor.2⟩
          ((hx.update _ ht _ rfl).2.2 k (ho.change_lt hk) c hk)
    · exact role_after_update hst ht
        ((hx.update _ ht _ rfl).1 j hlt hold ⟨hfor.1.trans hcode, hfor.2⟩)
  · obtain hk | ⟨ht, -⟩ := change_of_step ho hst hc
    · exact absurd hfor (hx.read _ hread rfl k (ho.change_lt hk) c hk)
    · cases hread.symm.trans ht

omit hx in
/-- The change of a connection's role is submitted. -/
theorem agrees_submitted {c : RoleChangeCmd} {last : Bool} (hj : s.Live j)
    (ht : s.task x = some (k, .submit (.roleChange c) last)) (hc : c ∈ s.change k)
    (hfor : s.IsFor c.sessionCode c.userID j) : (s'.conn j).client.role =
      s'.sessions.getRole (s.conn j).client.code (s.conn j).client.id := by
  have hgiven : s.given x = some c := by
    obtain ⟨rfl, rest, ht⟩ := task_eq ht
    rw [given, command, ht]
    rfl
  have hrole : s'.sessions.getRole (s.conn j).client.code (s.conn j).client.id = c.role := by
    rw [getRole_of_step hst, hgiven]
    exact if_pos hfor
  rw [hrole, ← h.updated k c hc j hj hfor]
  refine (role_of_step hst (ho.wf.lt_of_serving hj.1)).resolve_right ?_
  rintro (ht' | ⟨_, _, _, ht', _⟩)
  · cases ht.symm.trans ht'
  · cases ht.symm.trans ht'

/-- No change of a connection's role is under way. -/
theorem agrees_unchanging (hj : s.Live j)
    (hold : ∀ k, ∀ c ∈ s.change k, ¬ s.IsFor c.sessionCode c.userID j)
    (hnone : ∀ k, ∀ c ∈ s'.change k, ¬ s.IsFor c.sessionCode c.userID j) :
    (s'.conn j).client.role =
      s'.sessions.getRole (s.conn j).client.code (s.conn j).client.id := by
  have hlt := ho.wf.lt_of_serving hj.1
  have hgetRole : s'.sessions.getRole (s.conn j).client.code (s.conn j).client.id =
      s.sessions.getRole (s.conn j).client.code (s.conn j).client.id := by
    rw [getRole_of_step hst]
    cases hg : s.given x with
    | none => rfl
    | some c =>
      refine if_neg fun hfor => ?_
      obtain helse | ⟨k, _, _, hk⟩ := ho.given hg
      · exact hx.settle c helse j hlt hj hfor
      · exact hold k c hk hfor
  rw [hgetRole, ← h.agrees j hj hold]
  refine (role_of_step hst hlt).resolve_right ?_
  rintro (hread | ⟨k, userID, role, ht, hu⟩)
  · obtain ⟨-, rest, ht⟩ := task_eq hread
    exact hj.2 (ht ▸ List.mem_cons_self)
  · exact hnone k _ (change_after_update ho hst ht) (updates ho hx ht hu hj)

theorem step_agrees (hj : s'.Live j)
    (hnone : ∀ k, ∀ c ∈ s'.change k, ¬ s.IsFor c.sessionCode c.userID j) :
    (s'.conn j).client.role =
      s'.sessions.getRole (s.conn j).client.code (s.conn j).client.id := by
  obtain hold | hread := live_of_step ho hst hj
  · by_cases hchange : ∃ k, ∃ c ∈ s.change k, s.IsFor c.sessionCode c.userID j
    · obtain ⟨k, c, hk, hfor⟩ := hchange
      obtain hstays | hrefuse | ⟨last, ht⟩ := change_stays ho hst hk
      · exact absurd hfor (hnone k c hstays)
      · exact absurd hfor
          (hx.settle c (hrefuse ▸ hk) j (ho.wf.lt_of_serving hold.1) hold)
      · exact h.agrees_submitted ho hst hold ht hk hfor
    · push Not at hchange
      exact h.agrees_unchanging ho hx hst hold hchange hnone
  · rw [role_after_read hst hread]
    obtain ⟨rfl, rest, ht⟩ := task_eq hread
    have hgiven : s.given (.run j) = none := by
      rw [given, command, ht]
      rfl
    rw [getRole_of_step hst, hgiven]

theorem step : s'.Tracks := by
  have hstays {j : ℕ} (hj : s'.Live j) : (s.conn j).Stays (s'.conn j) := by
    refine step_stays hst ?_
    obtain hold | hread := live_of_step ho hst hj
    · exact ho.wf.lt_of_serving hold.1
    · obtain ⟨-, rest, ht⟩ := task_eq hread
      exact ho.wf.lt_of_todo ht
  refine ⟨fun k c hc j hj hfor => ?_, fun j hj hnone => ?_,
    fun k k' c hc c' hc' => h.step_single ho hx hst hc hc'⟩
  · rw [IsFor, (hstays hj).code, (hstays hj).id] at hfor
    exact h.step_updated ho hx hst hc hj hfor
  · rw [Agrees, (hstays hj).code, (hstays hj).id]
    refine h.step_agrees ho hx hst hj fun k c hc hfor => hnone k c hc ?_
    rwa [IsFor, (hstays hj).code, (hstays hj).id]

omit h ho hx hst in
theorem of_reach (hs : (machine cfg).Reach Settled s) : s.Tracks := by
  have hinv : s.Tracks ∧ s.Ordered := by
    refine hs.invariant (I := fun s => s.Tracks ∧ s.Ordered) (fun s hs => ?_)
      fun s x s' _ h hx hst => ⟨h.1.step h.2 hx hst, h.2.step hst⟩
    cases hs
    exact ⟨⟨fun _ _ hc => (by cases hc), fun _ hj => (by cases hj.1),
      fun _ _ _ hc => (by cases hc)⟩, .initial⟩
  exact hinv.1

end Tracks

/-- **The role used for permission checks is the replicated role**, whenever no handler is at
work. -/
theorem role_is_replicated [DecidableEq E] [Edit E] (hs : (machine cfg).Reach Settled s)
    (hq : ∀ k < s.next, (s.conn k).todo = []) (hk : (s.conn k).serving = true) :
    (s.conn k).client.role = s.sessions.getRole (s.conn k).client.code (s.conn k).client.id := by
  have hwf := WF.of_reach hs
  refine (Tracks.of_reach hs).agrees k ⟨hk, ?_⟩ fun j c hc => ?_
  · rw [hq k (hwf.lt_of_serving hk)]
    exact List.not_mem_nil
  · obtain ⟨_, _, ht⟩ := change_of_todo hc
    rw [hq j (hwf.lt_of_todo ht)] at ht
    cases ht

/-! ## An accepted and a refused role change -/

instance (s : Ide E) (j : ℕ) : Decidable (s.Live j) :=
  decidable_of_iff ((s.conn j).serving = true ∧ (s.conn j).todo.any readsRole = false) <| by
    refine and_congr_right fun _ => ?_
    rw [List.any_eq_false]
    constructor
    · intro h hmem
      exact h _ hmem rfl
    · intro h t ht htrue
      cases t <;> first | exact h ht | cases htrue

instance (s : Ide E) (x : Action E) : Decidable (s.Settled x) :=
  decidable_of_iff (_ ∧ _ ∧ _) ⟨fun h => ⟨h.1, h.2.1, h.2.2⟩, fun h => ⟨h.1, h.2, h.3⟩⟩

/-- A node of a cluster. -/
def clustered : Config ℕ := ⟨true, 0, fun d => d = ∅⟩

/-- Ann makes Bob, who is connected, a proposer. -/
theorem role_is_replicated_accepted : ∃ s : Ide ℕ, (s.conn 1).client.role = "proposer" ∧
    s.sessions.getRole "abc" "bob" = "proposer" := by
  obtain ⟨s, hs, hv⟩ := (machine single).reach_of_run Settled
    (f := fun s => (decide (∀ k < s.next, (s.conn k).todo = []), (s.conn 1).serving,
      (s.conn 1).client.role, (s.conn 1).client.code, (s.conn 1).client.id))
    (v := (true, true, "proposer", "abc", "bob"))
    (editorAndViewer ++ [.send 0 (changesRole "bob" "proposer"), .serve 0] ++
      List.replicate 5 (.run 0)) rfl rfl
  simp only [Prod.mk.injEq, decide_eq_true_eq] at hv
  obtain ⟨hq, hserving, hrole, hcode, hid⟩ := hv
  have h := role_is_replicated hs hq hserving
  rw [hrole, hcode, hid] at h
  exact ⟨s, hrole, h.symm⟩

/-- The change is refused once Bob's connection has the new role. -/
theorem refused_role_stays : ¬ ∀ s : Ide ℕ, (machine clustered).Reachable s →
    (∀ k < s.next, (s.conn k).todo = []) → ∀ k, (s.conn k).serving = true →
    (s.conn k).client.role = s.sessions.getRole (s.conn k).client.code (s.conn k).client.id := by
  intro h
  obtain ⟨s, hs, hv⟩ := (machine clustered).reach_of_run (fun _ _ => True)
    (f := fun s => (decide (∀ k < s.next, (s.conn k).todo = []), (s.conn 1).serving,
      (s.conn 1).client.role, s.sessions.getRole (s.conn 1).client.code (s.conn 1).client.id))
    (v := (true, true, "proposer", "viewer"))
    (editorAndViewer ++ [.send 0 (changesRole "bob" "proposer"), .serve 0, .run 0, .refuse 0,
      .run 0]) rfl rfl
  simp only [Prod.mk.injEq, decide_eq_true_eq] at hv
  obtain ⟨hq, hserving, hrole, hget⟩ := hv
  have heq := h s hs hq 1 hserving
  rw [hrole, hget] at heq
  exact absurd heq (by decide)

end Ide

end CollabIde
