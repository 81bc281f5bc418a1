import CollabIde.Ide.Channels

/-!
# The pages of a session

On a single node, a page that is connected is served. As long as no connection takes the place of
another one in the hub while the page of that one is still connected (`Ide.KeepsPages`), the hub
has every connected page, from its registration on (`Attached`).
-/

namespace CollabIde

variable {E : Type}

namespace Ide

section Hub

variable (s : Ide E)

/-- A page that is connected to the session. -/
def Page (code : String) (k : ℕ) : Prop :=
  (s.conn k).client.code = code ∧ (s.conn k).tab.connected = true

instance (code : String) (k : ℕ) : Decidable (s.Page code k) := inferInstanceAs (Decidable (_ ∧ _))

/-- A connection that is registered takes no place of a connected page of the session. -/
def KeepsPages (code : String) (x : Action E) : Prop :=
  ∀ k ∈ s.registers x, ∀ j ∈ s.clients (s.conn k).client.id, ¬ s.Page code j

instance (code : String) (x : Action E) : Decidable (s.KeepsPages code x) :=
  inferInstanceAs (Decidable (∀ k ∈ s.registers x, ∀ j ∈ s.clients _, ¬ s.Page code j))

/-- Connected pages are served, and the hub has them, or will get them before anything is sent to
them. -/
structure Attached (code : String) : Prop where
  wf : s.WF
  attended : ∀ j, (s.conn j).Attended
  serving : ∀ j, (s.conn j).tab.connected = true → (s.conn j).serving = true
  opening : ∀ j, .register ∈ (s.conn j).todo → ¬ s.Registered j ∧ (s.conn j).pipeline = []
  registered : ∀ j, s.Page code j → s.Registered j ∨ .register ∈ (s.conn j).todo

end Hub

variable {cfg : Config E} {s s' : Ide E} {x : Action E} {code : String} {j k : ℕ}

variable [DecidableEq E] [Edit E]

omit [Edit E] in
theorem acts_connected (h : (s.acts cfg x j).connected = true) :
    (s.conn j).tab.connected = true := by
  unfold acts at h
  split at h
  · split at h
    · exact h
    · exact h
  · split at h
    · exact ((s.conn j).tab.starter_continues cfg.emptyText _).connected h
    · exact h
  · split at h
    · cases h
    · exact h
  · exact h

/-- A page that is connected has been connected, or its connection is opened. -/
theorem step_connected (h : s.step cfg x = some s') (hc : (s'.conn j).tab.connected = true) :
    (s.conn j).tab.connected = true ∨ ∃ userID code role, x = .connect userID code role ∧
      j = s.next ∧ s'.conn j = .fresh userID code role := by
  cases step_delivery h j with
  | page htab _ _ => exact .inl (acts_connected (htab ▸ hc))
  | connect hx hj hfresh => exact .inr ⟨_, _, _, hx, hj, hfresh⟩
  | receive _ hc _ _ _ => exact .inl hc

/-- Only a registration puts a connection into the hub. -/
theorem registered_of_step (h : s.step cfg x = some s') (hj : j < s.next) (hr : s'.Registered j) :
    s.registers x = some j ∨ s.Registered j := by
  rw [Registered, (step_stays h hj).id] at hr
  have hmapped := step_mapped h
  generalize s'.clients = m at hmapped hr
  cases hmapped with
  | same _ _ => exact .inr hr
  | @register k hk _ =>
    by_cases hid : (s.conn j).client.id = (s.conn k).client.id
    · rw [hid, Function.update_self, Option.some.injEq] at hr
      exact .inl (hr ▸ hk)
    · rw [Function.update_of_ne hid] at hr
      exact .inr hr
  | @unregister k _ _ _ =>
    by_cases hid : (s.conn j).client.id = (s.conn k).client.id
    · rw [hid, Function.update_self] at hr
      cases hr
    · rw [Function.update_of_ne hid] at hr
      exact .inr hr

/-- A connection stays in the hub until it is unregistered or loses its place to another one. -/
theorem step_registered (h : s.step cfg x = some s') (hwf : s.WF) (hr : s.Registered j)
    (hu : s.unregisters x ≠ some j)
    (hkeep : ∀ k ∈ s.registers x, j ∉ s.clients (s.conn k).client.id) : s'.Registered j := by
  rw [Registered, (step_stays h (hwf.registered hr).1).id]
  have hmapped := step_mapped h
  generalize s'.clients = m at hmapped
  cases hmapped with
  | same _ _ => exact hr
  | @register k hk _ =>
    by_cases hid : (s.conn j).client.id = (s.conn k).client.id
    · exact absurd (hid ▸ hr) (hkeep k hk)
    · rw [Function.update_of_ne hid]
      exact hr
  | @unregister k _ hk hreg =>
    by_cases hid : (s.conn j).client.id = (s.conn k).client.id
    · rw [Registered, hid, hreg, Option.some.injEq] at hr
      exact absurd (hr ▸ hk) hu
    · rw [Function.update_of_ne hid]
      exact hr

/-- A handler registers its client once. -/
theorem register_notMem (h : s.step cfg x = some s') (ha : (s.conn j).Attended)
    (hx : s.registers x = some j) : .register ∉ (s'.conn j).todo := by
  obtain ⟨rfl, rest, htodo⟩ := registers_eq hx
  have hmem : .register ∈ (s.conn j).todo := htodo ▸ List.mem_cons_self ..
  rw [run_todo h htodo]
  obtain hopen | hopen := ha.register hmem
  · rw [htodo] at hopen
    cases hopen
  · rw [htodo] at hopen
    obtain ⟨-, rfl⟩ := List.cons.inj hopen
    simp [follow]

/-- What is registered is a connection that has been opened. -/
theorem register_of_step (h : s.step cfg x = some s') (hr : .register ∈ (s'.conn j).todo) :
    .register ∈ (s.conn j).todo ∨ ∃ userID code role, x = .connect userID code role ∧
      j = s.next ∧ s'.conn j = .fresh userID code role := by
  cases step_handler h j with
  | page _ htodo _ => exact .inl (htodo ▸ hr)
  | connect hx hj hfresh => exact .inr ⟨_, _, _, hx, hj, hfresh⟩
  | @run t rest _ htodo _ _ htodo' =>
    left
    rw [htodo'] at hr
    rw [htodo]
    refine List.mem_cons_of_mem t ((List.mem_append.mp hr).resolve_left fun hfollow => ?_)
    cases t <;> simp [follow] at hfollow
  | @refuse _ last _ _ _ _ _ _ htodo =>
    rw [htodo] at hr
    cases last <;> simp [closingTasks] at hr
  | serve _ _ _ _ _ htodo =>
    rw [htodo] at hr
    exact absurd rfl (Client.frameTasks_loop hr).1
  | fail _ _ _ _ _ htodo =>
    rw [htodo] at hr
    exact absurd hr Leaving.unregister.register_notMem

/-- A connection that is registered is in the hub. -/
theorem registers_registered (h : s.step cfg x = some s') (hwf : s.WF)
    (hx : s.registers x = some j) : s'.Registered j := by
  have hlt := hwf.lt_of_todo (registers_eq hx).2.choose_spec
  rw [Registered, (step_stays h hlt).id]
  have hmapped := step_mapped h
  generalize s'.clients = m at hmapped
  cases hmapped with
  | same hnone _ =>
    rw [hx] at hnone
    cases hnone
  | register hk _ =>
    rw [hx] at hk
    cases hk
    exact Function.update_self ..
  | unregister hnone _ _ =>
    rw [hx] at hnone
    cases hnone

/-- A handler that has not registered its client does so, or will do. -/
theorem register_step (h : s.step cfg x = some s') (ha : (s.conn j).Attended)
    (hr : .register ∈ (s.conn j).todo) :
    s.registers x = some j ∨ .register ∈ (s'.conn j).todo := by
  cases step_handler h j with
  | page _ htodo _ => exact .inr (htodo ▸ hr)
  | connect _ _ hfresh =>
    right
    rw [hfresh]
    simp [Conn.fresh, openingTasks]
  | @run t rest hx htodo _ _ htodo' =>
    rw [htodo] at hr
    rcases List.mem_cons.mp hr with rfl | hr
    · left
      rw [hx, registers, htodo]
      rfl
    · rw [htodo']
      exact .inr (List.mem_append_right _ hr)
  | refuse _ hsubmit _ _ _ _ =>
    obtain hopen | hopen := ha.register hr <;> rw [hsubmit] at hopen <;> cases hopen
  | serve _ hidle _ _ _ _ =>
    rw [hidle.2] at hr
    cases hr
  | fail _ hidle _ _ _ _ =>
    rw [hidle.2] at hr
    cases hr

omit [DecidableEq E] [Edit E] in
/-- Before its registration, a handler writes nothing. -/
theorem opening_writes (ha : (s.conn j).Attended) (hr : .register ∈ (s.conn j).todo) :
    s.writes cfg x j = [] := by
  unfold writes
  split
  · rename_i k
    split
    · rename_i hj
      subst hj
      obtain hopen | hopen := ha.register hr <;> rw [hopen] <;> rfl
    · rfl
  · rfl

namespace Attached

theorem step (h : s.Attached code) (hst : s.step cfg x = some s') (hrsm : cfg.rsm = false)
    (hkeep : s.KeepsPages code x) : s'.Attached code := by
  have hwf := h.wf.step hst
  refine ⟨hwf, fun j => attended_step (h.attended j) hst, fun j hc => ?_, fun j hr => ?_,
    fun j hp => ?_⟩
  · obtain hc | ⟨_, _, _, -, -, hfresh⟩ := step_connected hst hc
    · have hserving := h.serving j hc
      cases step_handler hst j with
      | page hs _ _ => exact hs.trans hserving
      | connect _ _ hfresh => rw [hfresh]; rfl
      | run _ _ hs _ _ => exact hs.trans hserving
      | refuse _ _ hr _ _ _ =>
        rw [hrsm] at hr
        cases hr
      | serve _ _ _ hs _ _ => exact hs.trans hserving
      | fail _ _ hdown _ _ _ =>
        rw [hc] at hdown
        cases hdown
    · rw [hfresh]
      rfl
  · obtain hmem | ⟨_, _, _, rfl, rfl, hfresh⟩ := register_of_step hst hr
    · obtain ⟨hnot, hpipe⟩ := h.opening j hmem
      have hj : j < s.next := h.wf.lt_of_ne fun hu => by rw [hu] at hmem; cases hmem
      obtain ⟨hsocket, hsend⟩ := List.append_eq_nil_iff.mp hpipe
      refine ⟨fun hreg => ?_, ?_⟩
      · obtain hx | hreg := registered_of_step hst hj hreg
        · exact register_notMem hst (h.attended j) hx hr
        · exact hnot hreg
      · cases step_delivery hst j with
        | page _ hsocket' hsend' =>
          have hposted : s.posted x j = none := by
            by_contra hposted
            exact hnot (posted_registered h.wf hposted)
          rw [opening_writes (h.attended j) hmem, hsocket, hsend, List.append_nil, List.append_nil,
            List.append_eq_nil_iff] at hsocket'
          rw [hposted, Option.toList_none, ite_self, List.append_nil, hsocket'.2] at hsend'
          rw [Conn.pipeline, hsocket'.1, hsend', List.append_nil]
        | connect _ hnew _ => exact absurd hnew hj.ne
        | receive _ _ hm _ _ =>
          rw [hsocket] at hm
          cases hm
    · refine ⟨fun hreg => ?_, by rw [hfresh]; rfl⟩
      have hclients : s'.clients = s.clients := by
        cases stepped hst
        rfl
      rw [Registered, hclients] at hreg
      exact absurd (h.wf.registered hreg).1 (lt_irrefl _)
  · obtain hc | ⟨_, _, _, -, -, hfresh⟩ := step_connected hst hp.2
    · have hj := h.wf.lt_of_connected hc
      have hpage : s.Page code j := ⟨(step_stays hst hj).code ▸ hp.1, hc⟩
      obtain hreg | hmem := h.registered j hpage
      · refine .inl (step_registered hst h.wf hreg (fun hu => ?_) fun k hk hmem => ?_)
        · obtain ⟨-, rest, htodo⟩ := unregisters_eq hu
          exact (h.attended j).serving (h.serving j hc) (htodo ▸ List.mem_cons_self ..)
        · exact hkeep k hk j hmem hpage
      · exact (register_step hst (h.attended j) hmem).imp_left (registers_registered hst h.wf)
    · right
      rw [hfresh]
      simp [Conn.fresh, openingTasks]

omit [DecidableEq E] [Edit E] in
theorem initial : (initial : Ide E).Attached code where
  wf := ⟨fun _ _ => rfl, nofun⟩
  attended _ := ⟨nofun, nofun, fun _ => .returned⟩
  serving _ := nofun
  opening _ := nofun
  registered _ hp := nomatch hp.2

omit [DecidableEq E] [Edit E] in
/-- What a page does of itself. -/
theorem setTab (h : s.Attached code) (hk : k < s.next) {r : Tab E × List (Frame E)}
    (hr : r.1.connected = true → (s.conn k).tab.connected = true) :
    (s.setTab k r).Attached code := by
  have hsame (j : ℕ) := setConn_same (s := s) (k := k) (c := { s.conn k with
    tab := r.1, inbox := (s.conn k).inbox ++ r.2 })
    (fun c => (c.client, c.todo, c.serving, c.socket)) rfl j
  simp only [Prod.mk.injEq] at hsame
  have hconnected {j : ℕ} (hc : ((s.setTab k r).conn j).tab.connected = true) :
      (s.conn j).tab.connected = true := by
    rw [setTab_conn] at hc
    split at hc
    · rename_i hj
      exact hj ▸ hr hc
    · exact hc
  have hreg {j : ℕ} : (s.setTab k r).Registered j ↔ s.Registered j := by
    rw [Registered, Registered, setTab_client]
    rfl
  have hattended {c c' : Conn E} (htodo : c'.todo = c.todo) (hs : c'.serving = c.serving)
      (ha : c.Attended) : c'.Attended := by
    obtain ⟨h1, h2, h3⟩ := ha
    exact ⟨by rw [htodo]; exact h1, by rw [htodo, hs]; exact h2, by rw [htodo, hs]; exact h3⟩
  refine ⟨h.wf.setConn hk rfl, fun j => ?_, fun j hc => ?_, fun j hmem => ?_, fun j hp => ?_⟩
  · exact hattended (hsame j).2.1 (hsame j).2.2.1 (h.attended j)
  · exact (hsame j).2.2.1.trans (h.serving j (hconnected hc))
  · obtain ⟨hnot, hpipe⟩ := h.opening j ((hsame j).2.1 ▸ hmem)
    refine ⟨mt hreg.mp hnot, ?_⟩
    unfold Conn.pipeline at hpipe ⊢
    rw [Ide.setTab, (hsame j).1, (hsame j).2.2.2]
    exact hpipe
  · rw [Ide.setTab, (hsame j).2.1]
    refine (h.registered j ⟨?_, hconnected hp.2⟩).imp_left hreg.mpr
    exact (congrArg Client.code (hsame j).1) ▸ hp.1

end Attached

end Ide

end CollabIde
