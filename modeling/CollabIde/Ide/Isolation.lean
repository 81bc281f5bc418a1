import Mathlib.Logic.Relation
import CollabIde.Ide.Document

/-!
# Sessions and each other

A frame that is handled in a session should change nothing of another one: not its state, not the
roles of its clients, not what is queued for them (`Isolated`). The hub finds the client of a user
by the user ID alone, and `UpdateClientRole` and `SendRaw` do not ask for its session. So a frame
keeps to its session exactly if it is no accepted role change of a user who is connected elsewhere
in another role, and no answer to a state vector for such a user (`session_isolation`).
-/

namespace CollabIde

/-- The session of a command. -/
def Cmd.sessionCode {U : Type} : Cmd U → String
  | .crdtUpdate c => c.sessionCode
  | .proposal c => c.sessionCode
  | .roleChange c => c.sessionCode
  | .session c => c.code

theorem Sessions.doSession_ne {U : Type} (ss : Sessions U) (c : SessionCmd) {code : String}
    (h : code ≠ c.code) : ss.doSession c code = ss code := by
  have hc : ss.doSession c = ss ∨ ∃ st, ss.doSession c = ss.set c.code st := by
    unfold doSession
    split
    · exact .inr ⟨_, rfl⟩
    · exact .inr ⟨_, rfl⟩
    · exact .inl rfl
  obtain hc | ⟨st, hc⟩ := hc
  · rw [hc]
  · rw [hc]
    exact Function.update_of_ne h ..

/-- A command changes its own session only. -/
theorem Sessions.doOp_ne {U : Type} (ss : Sessions U) (cmd : Cmd U) {code : String}
    (h : code ≠ cmd.sessionCode) : ss.doOp cmd code = ss code := by
  cases cmd with
  | crdtUpdate c => exact Function.update_of_ne h ..
  | proposal c => exact Function.update_of_ne h ..
  | roleChange c => exact Function.update_of_ne h ..
  | session c => exact doSession_ne ss c h

/-- What comes first of an accepted role change. -/
theorem Client.roleChangeTasks_accepted {E : Type} (c : Client E) {m : IncomingMsg}
    (hc : c.role = "editor") (hm : m.role ∈ ["editor", "proposer", "viewer"]) :
    ∃ tail, c.roleChangeTasks m = .updateClientRole m.userID m.role :: tail := by
  simp only [List.mem_cons, List.not_mem_nil, or_false] at hm
  unfold roleChangeTasks
  rw [if_neg (not_not.mpr hc), if_neg (by tauto)]
  exact ⟨_, rfl⟩

namespace Ide

variable {E : Type} {cfg : Config E} {s s' : Ide E} {k : ℕ} {code : String}

/-! ## The handling of a frame -/

/-- The handler of connection `k` reads a frame and does the tasks that it brings, up to some
point; a `submit` may be refused. -/
def Handles (cfg : Config E) (k : ℕ) (s s' : Ide E) : Prop :=
  ∃ s₁, s.serve k = some s₁ ∧
    Relation.ReflTransGen (fun a b => a.runTask cfg k = some b ∨ a.refuse cfg k = some b) s₁ s'

/-- Sessions other than `code` are as before. -/
structure Isolated (code : String) (s s' : Ide E) : Prop where
  sessions : ∀ other, other ≠ code → s'.sessions other = s.sessions other
  role : ∀ j, (s.conn j).client.code ≠ code → (s'.conn j).client.role = (s.conn j).client.role
  send : ∀ j, (s.conn j).client.code ≠ code → (s'.conn j).client.send = (s.conn j).client.send

/-- The hub has the connection for the user, and it is in another session. -/
def Elsewhere (s : Ide E) (userID code : String) (j : ℕ) : Prop :=
  s.clients userID = some j ∧ (s.conn j).client.code ≠ code

/-- The frame does not reach a client of another session: a role change is rejected or changes no
role there, and a message for a user there is discarded. -/
def StaysInSession (s : Ide E) (k : ℕ) : Frame E → Prop
  | .text (some m) _ =>
    let c := (s.conn k).client
    (m.type = "role_change" → c.role = "editor" → m.role ∈ ["editor", "proposer", "viewer"] →
      ∀ j, s.Elsewhere m.userID c.code j → (s.conn j).client.role = m.role) ∧
    (m.type = "sync_update" → m.toID ≠ "" →
      ∀ j, s.Elsewhere m.toID c.code j → sendCap ≤ (s.conn j).client.send.length)
  | _ => True

/-- What stays so while a handler of the session is at work. -/
structure Kept (code : String) (s s' : Ide E) : Prop extends Isolated code s s' where
  code : ∀ j, (s'.conn j).client.code = (s.conn j).client.code
  clients : ∀ u j, s'.clients u = some j → s.clients u = some j

/-- The task of a handler of the session reaches no client of another one. -/
def Within (s : Ide E) (code : String) : Task E → Prop
  | .submit cmd _ => cmd.sessionCode = code
  | .updateClientRole userID role =>
    ∀ j, s.Elsewhere userID code j → (s.conn j).client.role = role
  | .register => False
  | _ => True

namespace Kept

theorem refl : Kept code s s :=
  ⟨⟨fun _ _ => rfl, fun _ _ => rfl, fun _ _ => rfl⟩, fun _ => rfl, fun _ _ => id⟩

/-- A connection of the session changes. -/
theorem setConn (h : Kept code s s') {c : Conn E} (hk : (s'.conn k).client.code = code)
    (hc : c.client.code = (s'.conn k).client.code) : Kept code s (s'.setConn k c) := by
  have hne : ∀ j, (s.conn j).client.code ≠ code → j ≠ k := by
    rintro j hj rfl
    exact hj (h.code j ▸ hk)
  refine ⟨⟨h.sessions, fun j hj => ?_, fun j hj => ?_⟩, fun j => ?_, h.clients⟩
  · rw [setConn_conn_ne (hne j hj)]
    exact h.role j hj
  · rw [setConn_conn_ne (hne j hj)]
    exact h.send j hj
  · rw [setConn_same (fun c => c.client.code) hc j, h.code]

/-- A message goes to connections of the session, and to full queues. -/
theorem post (h : Kept code s s') {target : ℕ → Prop} [DecidablePred target] (m : WSMessage E)
    (ht : ∀ j, target j → (s'.conn j).client.code ≠ code →
      sendCap ≤ (s'.conn j).client.send.length) : Kept code s (s'.post target m) := by
  refine ⟨⟨h.sessions, fun j hj => ?_, fun j hj => ?_⟩, fun j => ?_, h.clients⟩
  · rw [post_same (fun c => c.client.role) (fun _ _ => rfl) j, h.role j hj]
  · rw [post_conn]
    split
    · rename_i hj'
      have hfull := ht j hj' (h.code j ▸ hj)
      simp only [Conn.trySend, Client.trySend, if_neg (not_lt.mpr hfull)]
      exact h.send j hj
    · exact h.send j hj
  · rw [post_same (fun c => c.client.code) (fun _ _ => rfl) j, h.code]

theorem broadcastSession (h : Kept code s s') (m : WSMessage E) (senderID : String) :
    Kept code s (s'.broadcastSession m senderID code) :=
  h.post m fun _ hj hne => absurd hj.1.2 hne

theorem perform (h : Kept code s s') (hk : (s.conn k).client.code = code) {t : Task E}
    (ht : s.Within code t) : Kept code s (s'.perform cfg k t) := by
  have hk' : (s'.conn k).client.code = code := (h.code k).trans hk
  cases t with
  | getRole => exact h.setConn hk' rfl
  | register => exact ht.elim
  | sendDoc =>
    simp only [Ide.perform]
    split
    · exact h.setConn hk' rfl
    · exact h
  | listParticipants => exact h.setConn hk' rfl
  | startPump => exact h.setConn hk' rfl
  | submit cmd last =>
    refine ⟨⟨fun other ho => ?_, h.role, h.send⟩, h.code, h.clients⟩
    have ho' : other ≠ cmd.sessionCode := fun he => ho (he.trans ht)
    exact (s'.sessions.doOp_ne cmd ho').trans (h.sessions other ho)
  | redirect => exact h.setConn hk' rfl
  | broadcast m => exact hk' ▸ h.broadcastSession m _
  | broadcastAll m => exact h.post m fun j hj hne => absurd (hj.2.trans hk') hne
  | updateClientRole userID role =>
    simp only [Ide.perform, Ide.updateClientRole]
    split
    · rename_i j hj
      by_cases hc : (s'.conn j).client.code = code
      · exact h.setConn hc rfl
      · have hc' : (s.conn j).client.code ≠ code := h.code j ▸ hc
        have hrole := ht j ⟨h.clients _ _ hj, hc'⟩
        refine ⟨⟨h.sessions, fun i hi => ?_, fun i hi => ?_⟩, fun i => ?_, h.clients⟩
        · by_cases hij : i = j
          · rw [hij, setConn_conn_self, hrole]
          · rw [setConn_conn_ne hij, h.role i hi]
        · exact (setConn_same (fun c => c.client.send) (by rfl) i).trans (h.send i hi)
        · exact (setConn_same (fun c => c.client.code) (by rfl) i).trans (h.code i)
    · exact h
  | unregister =>
    simp only [Ide.perform, Ide.unregister]
    split
    · have h' := h.setConn hk' (c := { s'.conn k with
        client := { (s'.conn k).client with closed := true } }) rfl
      refine ⟨⟨h'.sessions, h'.role, h'.send⟩, h'.code, fun u j hu => h.clients u j ?_⟩
      change Function.update s'.clients (s'.conn k).client.id none u = some j at hu
      by_cases hu' : u = (s'.conn k).client.id
      · rw [hu', Function.update_self] at hu
        cases hu
      · rwa [Function.update_of_ne hu'] at hu
    · exact h

end Kept

theorem within_proposalTasks {c : Client E} {m : IncomingMsg} {t : Task E} (hc : c.code = code)
    (ht : t ∈ c.proposalTasks m) : s.Within code t := by
  unfold Client.proposalTasks at ht
  repeat' split at ht
  all_goals
    simp only [List.mem_cons, List.not_mem_nil, or_false] at ht
    try obtain rfl | rfl := ht
    all_goals first | exact hc | trivial

theorem within_roleChangeTasks {c : Client E} {m : IncomingMsg} {t : Task E} (hc : c.code = code)
    (hm : c.role = "editor" → m.role ∈ ["editor", "proposer", "viewer"] →
      ∀ j, s.Elsewhere m.userID code j → (s.conn j).client.role = m.role)
    (ht : t ∈ c.roleChangeTasks m) : s.Within code t := by
  unfold Client.roleChangeTasks at ht
  split at ht
  · cases ht
  split at ht
  · cases ht
  · rename_i hed hrole
    simp only [List.mem_cons, List.not_mem_nil, or_false] at ht
    obtain rfl | rfl | rfl | rfl := ht
    · exact hm (not_not.mp hed) (by simp only [List.mem_cons]; tauto)
    · exact hc
    · trivial
    · trivial

/-- The handler of a frame that stays in the session, and the tasks that it leaves. -/
theorem Kept.handleFrame (h : Kept code s s') (hk : (s.conn k).client.code = code)
    (hc : (s'.conn k).client = (s.conn k).client) (htodo : (s'.conn k).todo = []) {f : Frame E}
    (hsend : ∀ j, (s'.conn j).client.send = (s.conn j).client.send)
    (hf : s.StaysInSession k f) : Kept code s (s'.handleFrame k f) ∧
      ∀ t ∈ ((s'.handleFrame k f).conn k).todo, s.Within code t := by
  have hk' : (s'.conn k).client.code = code := (h.code k).trans hk
  have tasks {ts : List (Task E)} (hts : ∀ t ∈ ts, s.Within code t) :
      Kept code s (s'.setTodo k ts) ∧ ∀ t ∈ ((s'.setTodo k ts).conn k).todo, s.Within code t :=
    ⟨h.setConn hk' rfl, by rwa [Ide.setTodo, setConn_conn_self]⟩
  have relay {target : ℕ → Prop} [DecidablePred target] {m : WSMessage E}
      (ht : Kept code s (s'.post target m)) : Kept code s (s'.post target m) ∧
        ∀ t ∈ ((s'.post target m).conn k).todo, s.Within code t := by
    refine ⟨ht, ?_⟩
    rw [post_same (·.todo) (fun _ _ => rfl) k, htodo]
    exact fun _ h => by cases h
  cases f with
  | binary u =>
    refine tasks fun t ht => ?_
    unfold Client.binaryTasks at ht
    split at ht
    · simp only [List.mem_cons, List.not_mem_nil, or_false] at ht
      obtain rfl | rfl := ht
      · exact hk'
      · trivial
    · cases ht
  | text m x =>
    cases m with
    | none => exact ⟨h, by rw [Ide.handleFrame, htodo]; exact fun _ h => by cases h⟩
    | some m =>
      obtain ⟨hrole, hsync⟩ := hf
      simp only [Ide.handleFrame, hk']
      split
      · exact tasks fun t ht => within_proposalTasks hk' ht
      · rename_i hm
        refine tasks fun t ht => within_roleChangeTasks hk' ?_ ht
        rw [hc]
        exact hk ▸ hrole hm
      · exact relay (h.broadcastSession _ _)
      · exact relay (h.broadcastSession _ _)
      · exact relay (h.broadcastSession _ _)
      · rename_i hm
        by_cases hto : m.toID ≠ ""
        · rw [if_pos hto]
          refine relay (h.post _ fun j hj hne => ?_)
          rw [hsend]
          exact hsync hm hto j ⟨h.clients _ _ hj, by rwa [hk, ← h.code]⟩
        · rw [if_neg hto]
          exact ⟨h, by rw [htodo]; exact fun _ h => by cases h⟩
      · exact ⟨h, by rw [htodo]; exact fun _ h => by cases h⟩

/-- The tasks of the handler stay in the session. -/
theorem Kept.handles [DecidableEq E] [Edit E] {s₁ : Ide E} (hk : (s.conn k).client.code = code)
    (h₁ : Kept code s s₁ ∧ ∀ t ∈ (s₁.conn k).todo, s.Within code t)
    (hr : Relation.ReflTransGen (fun a b => a.runTask cfg k = some b ∨ a.refuse cfg k = some b)
      s₁ s') : Kept code s s' ∧ ∀ t ∈ (s'.conn k).todo, s.Within code t := by
  induction hr with
  | refl => exact h₁
  | @tail a b _ hab ih =>
    obtain ⟨hkept, htodo⟩ := ih
    have hk' : (a.conn k).client.code = code := (hkept.code k).trans hk
    obtain hab | hab := hab
    · cases stepped (x := .run k) hab with
      | @run _ t rest ht =>
        rw [ht] at htodo
        refine ⟨(hkept.setConn hk' (by rfl)).perform hk (htodo t (by simp)), fun t' ht' => ?_⟩
        obtain ⟨ms, hms⟩ := perform_todo cfg (a.setTodo k rest) k t k
        rw [hms, setTodo, setConn_conn_self, List.mem_append] at ht'
        obtain ht' | ht' := ht'
        · obtain ⟨m, -, rfl⟩ := List.mem_map.mp ht'
          trivial
        · exact htodo t' (List.mem_cons_of_mem _ ht')
    · cases stepped (x := .refuse k) hab with
      | @refuse _ cmd last rest _ ht =>
        refine ⟨hkept.setConn hk' rfl, fun t' ht' => ?_⟩
        rw [setConn_conn_self] at ht'
        simp only [List.mem_cons] at ht'
        obtain rfl | ht' := ht'
        · trivial
        · split at ht'
          · simp only [closingTasks, List.mem_cons, List.not_mem_nil, or_false] at ht'
            obtain rfl | rfl := ht' <;> trivial
          · cases ht'

theorem updateClientRole_role {userID role : String} {j : ℕ} (h : s.clients userID = some j) :
    ((s.updateClientRole userID role).conn j).client.role = role := by
  simp only [updateClientRole, h, setConn_conn_self]

theorem updateClientRole_role_ne {userID role : String} {j : ℕ} (h : s.clients userID ≠ some j) :
    ((s.updateClientRole userID role).conn j).client.role = (s.conn j).client.role := by
  unfold updateClientRole
  split
  · rename_i i hi
    have hij : j ≠ i := by
      rintro rfl
      exact h hi
    rw [setConn_conn_ne hij]
  · rfl

/-- **Sessions are isolated**, exactly from the frames that stay in their session. -/
theorem session_isolation [DecidableEq E] [Edit E] {f : Frame E} {rest : List (Frame E)}
    (hi : s.Idle k) (hf : (s.conn k).inbox = f :: rest) :
    (∀ s', Handles cfg k s s' → Isolated (s.conn k).client.code s s') ↔ s.StaysInSession k f := by
  have hserve : s.serve k =
      some ((s.setConn k { s.conn k with inbox := rest }).handleFrame k f) := by
    simp only [serve, if_pos hi, hf]
  constructor
  · intro h
    cases f with
    | binary u => trivial
    | text m x =>
      cases m with
      | none => trivial
      | some m =>
        refine ⟨fun hm hed hrole j hj => ?_, fun hm hto j hj => ?_⟩
        · obtain ⟨hj, hne⟩ := hj
          obtain ⟨tail, htasks⟩ := (s.conn k).client.roleChangeTasks_accepted hed hrole
          have hs₁ : (s.setConn k { s.conn k with inbox := rest }).handleFrame k
              (.text (some m) x) = (s.setConn k { s.conn k with inbox := rest }).setTodo k
                (.updateClientRole m.userID m.role :: tail) := by
            simp only [Ide.handleFrame, hm, setConn_conn_self, htasks]
          rw [hs₁] at hserve
          have hrun : runTask cfg ((s.setConn k { s.conn k with inbox := rest }).setTodo k
              (.updateClientRole m.userID m.role :: tail)) k = some (((s.setConn k { s.conn k with
                inbox := rest }).setTodo k (.updateClientRole m.userID m.role :: tail)).setTodo k
                  tail |>.updateClientRole m.userID m.role) := by
            simp only [runTask, setTodo, setConn_conn_self, perform]
          have hkeep := (h _ ⟨_, hserve, .single (.inl hrun)⟩).role j hne
          exact hkeep.symm.trans (updateClientRole_role hj)
        · obtain ⟨hj, hne⟩ := hj
          by_contra hroom
          have hsend := (h _ ⟨_, hserve, .refl⟩).send j hne
          have hjk : j ≠ k := by
            rintro rfl
            exact hne rfl
          simp only [Ide.handleFrame, hm, if_pos hto, sendRaw] at hsend
          rw [post_conn, if_pos (by exact hj), setConn_conn_ne hjk] at hsend
          simp only [Conn.trySend, Client.trySend, if_pos (not_le.mp hroom)] at hsend
          simpa using congrArg List.length hsend
  · rintro h s' ⟨s₁, hs₁, hr⟩
    rw [hserve, Option.some.injEq] at hs₁
    subst hs₁
    refine (Kept.handles rfl (Kept.handleFrame (Kept.refl.setConn rfl (by rfl)) rfl ?_ ?_ ?_ h)
      hr).1.toIsolated
    · rw [setConn_conn_self]
    · rw [setConn_conn_self]
      exact hi.2
    · exact setConn_same (fun c => c.client.send) (by rfl)

/-! ## Two sessions -/

/-- A role change that a page sends. -/
def changesRole (userID role : String) : Frame ℕ :=
  .text (some { type := "role_change", userID := userID, role := role })
    (some (.roleChange userID role))

/-- Ann in her session, Carol in hers; Ann sends a role change. -/
def twoSessions (userID : String) : List (Action ℕ) :=
  .create "ann" "abc" :: opens 0 "ann" "editor" ++ [.create "carol" "xyz"] ++
    .connect "carol" "xyz" "editor" :: List.replicate 6 (.run 1) ++
    [.send 0 (changesRole userID "viewer")]

/-- What the first task of the frame that connection 0 reads leaves. -/
def firstTask (s : Ide ℕ) : Option (Ide ℕ) := (s.serve 0).bind fun s₁ => s₁.runTask single 0

theorem handles_firstTask {s s' : Ide ℕ} (h : s.firstTask = some s') : Handles single 0 s s' := by
  obtain ⟨s₁, hs₁, hs'⟩ := Option.bind_eq_some_iff.mp h
  exact ⟨s₁, hs₁, .single (.inl hs')⟩

theorem session_isolation_absent : ∃ s s' : Ide ℕ, s.clients "carol" = some 1 ∧
    Handles single 0 s s' ∧ Isolated "abc" s s' := by
  obtain ⟨s, -, hv⟩ := (machine single).reach_of_run (fun _ _ => True)
    (f := fun s => ((s.conn 0).inbox, decide (s.Idle 0), (s.conn 0).client.code,
      s.clients "bob", s.clients "carol", s.firstTask.isSome))
    (v := ([changesRole "bob" "viewer"], true, "abc", none, some 1, true))
    (twoSessions "bob") rfl rfl
  simp only [Prod.mk.injEq, decide_eq_true_eq] at hv
  obtain ⟨hin, hi, hcode, hbob, hcarol, hfirst⟩ := hv
  obtain ⟨s', hs'⟩ := Option.isSome_iff_exists.mp hfirst
  have hstays : s.StaysInSession 0 (changesRole "bob" "viewer") :=
    ⟨fun _ _ _ j hj => (by cases hbob.symm.trans hj.1), fun hm => absurd hm (by decide)⟩
  have hiso := (session_isolation hi hin).mpr hstays s' (handles_firstTask hs')
  exact ⟨s, s', hcarol, handles_firstTask hs', hcode ▸ hiso⟩

/-- Ann makes Carol, who is in another session, a viewer. -/
theorem session_not_isolated : ¬ ∀ (s s' : Ide ℕ) (k : ℕ), (machine single).Reachable s →
    Handles single k s s' → Isolated (s.conn k).client.code s s' := by
  intro h
  obtain ⟨s, hs, hv⟩ := (machine single).reach_of_run (fun _ _ => True)
    (f := fun s => ((s.conn 0).client.code, (s.conn 1).client.code, (s.conn 1).client.role,
      s.firstTask.map fun s' => (s'.conn 1).client.role))
    (v := ("abc", "xyz", "editor", some "viewer")) (twoSessions "carol") rfl rfl
  simp only [Prod.mk.injEq] at hv
  obtain ⟨hann, hcarol, hrole, hfirst⟩ := hv
  obtain ⟨s', hs', hrole'⟩ := Option.map_eq_some_iff.mp hfirst
  have hkeep := (h s s' 0 hs (handles_firstTask hs')).role 1 (by rw [hann, hcarol]; decide)
  rw [hrole', hrole] at hkeep
  exact absurd hkeep (by decide)

end Ide

end CollabIde
