import CollabIde.Ide.Owed

/-!
# Pages converge

As long as no message about the document is lost (`Ide.Synced`), every edit that a page has sent on
is owed to the other pages of its session (`Converging`), so that the pages have the same edits once
all is delivered (`pages_converge`).
-/

namespace CollabIde

variable {E : Type}

namespace Tab

variable [DecidableEq E] [Edit E] (tab : Tab E)

/-- A page that answers a message stays connected. -/
theorem onMessage_connected {m : WSMessage E} (h : (tab.onMessage m).2 ≠ []) :
    (tab.onMessage m).1.connected = tab.connected := by
  unfold onMessage at h ⊢
  split at h
  · rfl
  · rfl
  · split at h
    · exact absurd rfl h
    · split <;> rfl
    · rfl
    · rfl
    · rfl
    · rfl
    · rfl

end Tab

namespace Ide

variable {cfg : Config E} {s s' : Ide E} {x : Action E} {code : String} {e : E} {j k p q r : ℕ}

theorem opening_iff : s.Opening k = true ↔ .register ∈ (s.conn k).todo := by
  rw [Opening, List.any_eq_true]
  constructor
  · rintro ⟨t, ht, h⟩
    cases t with
    | register => exact ht
    | _ => cases h
  · exact fun h => ⟨.register, h, rfl⟩

/-- No update of the client is to be read, submitted or broadcast. -/
theorem pushes_eq_false : s.Pushes k = false ↔ (∀ u, .binary u ∉ (s.conn k).inbox) ∧
    (∀ c last, .submit (.crdtUpdate c) last ∉ (s.conn k).todo) ∧
      ∀ m, .broadcast m ∉ (s.conn k).todo := by
  rw [Pushes, Bool.or_eq_false_iff, List.any_eq_false, List.any_eq_false]
  constructor
  · rintro ⟨hin, htodo⟩
    exact ⟨fun u hu => hin _ hu rfl, fun c last ht => htodo _ ht rfl, fun m ht => htodo _ ht rfl⟩
  · rintro ⟨hin, hsubmit, hbroadcast⟩
    refine ⟨fun f hf => ?_, fun t ht => ?_⟩
    · cases f with
      | binary u => exact absurd hf (hin u)
      | text m t => exact Bool.false_ne_true
    · cases t with
      | submit cmd last =>
        cases cmd with
        | crdtUpdate c => exact absurd ht (hsubmit c last)
        | _ => exact Bool.false_ne_true
      | broadcast m => exact absurd ht (hbroadcast m)
      | _ => exact Bool.false_ne_true

/-- A handler writes edits with the document of a new connection. -/
theorem writes_edit {m : WSMessage E} (hm : m ∈ s.writes cfg x j) (he : e ∈ m.edits) :
    x = .run j ∧ ∃ rest d, (s.conn j).todo = .sendDoc :: rest ∧
      s.sessions.getDoc (s.conn j).client.code = some d ∧ e ∈ d := by
  cases x with
  | run k =>
    simp only [writes] at hm
    split at hm
    · rename_i hj
      subst hj
      cases htodo : (s.conn j).todo with
      | nil =>
        rw [htodo] at hm
        cases hm
      | cons t rest =>
        rw [htodo, List.head?_cons, Option.elim_some] at hm
        cases t with
        | sendDoc =>
          obtain ⟨d, hd, rfl⟩ := Option.map_eq_some_iff.mp (Option.mem_toList.mp hm)
          exact ⟨rfl, rest, d, rfl, hd, he⟩
        | redirect =>
          rw [List.mem_singleton.mp hm] at he
          cases he
        | _ => cases hm
    · cases hm
  | _ => cases hm

variable [DecidableEq E] [Edit E]

/-- A page that sends frames stays connected. -/
theorem connected_of_sends (h : s.step cfg x = some s') (hne : s.sends cfg x j ≠ []) :
    (s'.conn j).tab.connected = true := by
  cases stepped h with
  | @receive k m rest hm hc =>
    simp only [sends] at hne
    split at hne
    · rename_i hk
      subst hk
      rw [hm, List.head?_cons, Option.elim_some] at hne
      rw [setTab_conn, if_pos rfl]
      exact (Tab.onMessage_connected _ hne).trans hc
    · exact absurd rfl hne
  | @edit k es hc _ =>
    simp only [sends] at hne
    split at hne
    · rename_i hk
      subst hk
      rw [setTab_conn, if_pos rfl]
      exact hc
    · exact absurd rfl hne
  | @starter k es hc =>
    simp only [sends] at hne
    split at hne
    · rename_i hk
      subst hk
      rw [setTab_conn, if_pos rfl]
      exact (Tab.starter_connected _ _ _).trans hc
    · exact absurd rfl hne
  | @send k f hc =>
    simp only [sends] at hne
    split at hne
    · rename_i hk
      subst hk
      rw [setTab_conn, if_pos rfl]
      exact hc
    · exact absurd rfl hne
  | _ => exact absurd rfl hne

theorem sends_eq_nil (h : s.step cfg x = some s') (hc : (s'.conn j).tab.connected = false) :
    s.sends cfg x j = [] := by
  by_contra hne
  rw [connected_of_sends h hne] at hc
  cases hc

/-- A page sends its whole document with a new edit. -/
theorem fresh_of_acts (h : s.step cfg x = some s') (hreg : s.Regular) (hj : j < s.next)
    (hdoc : e ∉ (s.conn j).tab.doc) (he : e ∈ (s.acts cfg x j).doc) : (s'.conn j).Fresh e := by
  obtain ⟨u, hfind⟩ := sends_edit h hdoc he
  have hsends {y : Action E} (hx : x = y) (hy : s.sends cfg y j = []) : False := by
    rw [hx, hy] at hfind
    cases hfind
  have hold : (s.conn j).inbox.find? (fun f => e ∈ f.message.edits) = none :=
    List.find?_eq_none.mpr fun f hf hef =>
      hdoc ((hreg.sent j f hf).edits (of_decide_eq_true hef))
  cases step_handler h j with
  | page _ _ hin =>
    refine .inr ⟨u, ?_⟩
    rw [hin, List.find?_append, hold]
    exact hfind
  | connect _ hnew _ => exact absurd hnew hj.ne
  | run hx _ _ _ _ => exact (hsends hx rfl).elim
  | refuse hx _ _ _ _ _ => exact (hsends hx rfl).elim
  | serve hx _ _ _ _ _ => exact (hsends hx rfl).elim
  | fail hx _ _ _ _ _ => exact (hsends hx rfl).elim

/-- The document of the session stays, or the update of a handler takes its place. -/
theorem step_getDoc (code : String) (h : s.step cfg x = some s') (hrsm : cfg.rsm = false)
    (hreg : s.Regular) :
    s'.sessions.getDoc code = s.sessions.getDoc code ∨ ∃ r u, x = .run r ∧
      (s.conn r).client.code = code ∧ (s.conn r).todo =
        [.submit (.crdtUpdate ⟨(s.conn r).client.code, u⟩) true, .broadcast (.binary u)] ∧
      u ⊆ (s.conn r).tab.doc ∧ s'.sessions.getDoc code = some u := by
  cases step_applies h with
  | none hsess _ _ => exact .inl (by rw [hsess])
  | some cmd hsess _ hcmd =>
    rw [hsess, Sessions.getDoc_doOp]
    cases cmd with
    | crdtUpdate c =>
      simp only
      split
      · rename_i hcode
        right
        cases x with
        | run r =>
          simp only [command] at hcmd
          split at hcmd
          · rename_i last rest htodo
            cases hcmd
            have hmem : .submit (.crdtUpdate c) last ∈ (s.conn r).todo :=
              htodo ▸ List.mem_cons_self ..
            cases hreg.pushing r with
            | still hstill => exact (hstill _ hmem).elim
            | @submit u htodo' hu =>
              cases htodo.symm.trans htodo'
              exact ⟨r, u, rfl, hcode.symm, htodo', hu, rfl⟩
            | broadcast htodo' _ => cases htodo.symm.trans htodo'
          · cases hcmd
        | replicate cmd =>
          cases stepped h with
          | replicate hr =>
            rw [hrsm] at hr
            cases hr
        | _ => cases hcmd
      · exact .inl rfl
    | _ => exact .inl rfl

/-- The document is what has been submitted last. -/
theorem getDoc_of_submit (h : s.step cfg (.run r) = some s') {c : CRDTUpdateCmd (Finset E)}
    {last : Bool} {rest : List (Task E)}
    (htodo : (s.conn r).todo = .submit (.crdtUpdate c) last :: rest) :
    s'.sessions.getDoc c.sessionCode = some c.update := by
  cases stepped h with
  | run ht =>
    cases htodo.symm.trans ht
    exact (Sessions.getDoc_doOp _ (.crdtUpdate c) _).trans (if_pos rfl)

/-- A document does not get lost. -/
theorem getDoc_ne_none (h : s.step cfg x = some s') (hrsm : cfg.rsm = false) (hreg : s.Regular)
    (hdoc : s.sessions.getDoc code ≠ none) : s'.sessions.getDoc code ≠ none := by
  obtain hsame | ⟨r, u, -, -, -, -, hdoc'⟩ := step_getDoc code h hrsm hreg
  · exact hsame ▸ hdoc
  · rw [hdoc']
    exact Option.some_ne_none u

/-- A page that the hub has after a step has been there, and it has been registered in the step if
the hub did not have it. -/
theorem on_of_step (h : s.step cfg x = some s') (hwf : s.WF) (ha : s'.Attached code) (hq : s'.On code q) :
    q < s.next ∧ s.Page code q ∧ (s.On code q ∨ s.registers x = some q) := by
  obtain hc | ⟨_, _, _, -, -, hfresh⟩ := step_connected h hq.1.2
  · have hlt := hwf.lt_of_connected hc
    have hpage : s.Page code q := ⟨(step_stays h hlt).code ▸ hq.1.1, hc⟩
    refine ⟨hlt, hpage, (registered_of_step h hlt hq.2).symm.imp_left fun hreg => ⟨hpage, hreg⟩⟩
  · refine absurd hq.2 (ha.opening q ?_).1
    rw [hfresh]
    simp [Conn.fresh, openingTasks]

/-! ## The invariant -/

section Converging

variable (s) (code : String) (e : E)

/-- What holds of the connections of the session as long as nothing is lost. -/
structure Steady : Prop where
  attached : s.Attached code
  regular : s.Regular
  /-- A page that has closed its connection has answered. -/
  answered : ∀ j, (s.conn j).client.code = code → (s.conn j).tab.connected = false →
    ∀ diff userID, Tab.syncUpdate diff userID ∉ (s.conn j).inbox
  /-- Of the connections of a user, the one that the hub has takes updates. -/
  alone : ∀ q r, s.On code q → r ≠ q → (s.conn r).client.code = code →
    (s.conn r).client.id = (s.conn q).client.id →
      .register ∈ (s.conn r).todo ∨ s.Pushes r = false
  /-- An update that is broadcast has been submitted. -/
  submitted : ∀ r u, (s.conn r).client.code = code → (s.conn r).todo = [.broadcast (.binary u)] →
    s.sessions.getDoc code ≠ none

/-- The edit is owed to every page that the hub has, once it has been sent on. -/
structure Converging : Prop where
  steady : s.Steady code
  opening : ∀ j, s.Page code j → .register ∈ (s.conn j).todo → e ∈ (s.conn j).tab.doc →
    (s.conn j).Fresh e
  doc : ∀ d, s.sessions.getDoc code = some d → e ∈ d → ∀ q, s.On code q → s.Due code e q
  pages : ∀ p, s.On code p → (s.conn p).Reaches e → ¬ (s.conn p).Fresh e →
    s.sessions.getDoc code ≠ none ∧ ∀ q, s.On code q → s.Owed code e q

end Converging

/-- A connection whose page is gone gets no more updates to push. -/
theorem step_pushes (h : s.step cfg x = some s') (hrsm : cfg.rsm = false) (hj : j < s.next)
    (hsends : s.sends cfg x j = []) (hp : s.Pushes j = false) : s'.Pushes j = false := by
  obtain ⟨hin, hsubmit, hbroadcast⟩ := pushes_eq_false.mp hp
  have hstill {ts : List (Task E)} (hts : ∀ t ∈ ts, t.Still) :
      (∀ c last, .submit (.crdtUpdate c) last ∉ ts) ∧ ∀ m, .broadcast m ∉ ts :=
    ⟨fun _ _ ht => hts _ ht, fun _ ht => hts _ ht⟩
  refine pushes_eq_false.mpr ?_
  cases step_handler h j with
  | page _ htodo hin' =>
    rw [htodo, hin', hsends, List.append_nil]
    exact ⟨hin, hsubmit, hbroadcast⟩
  | connect _ hnew _ => exact absurd hnew hj.ne
  | @run t rest _ hcons _ hin' htodo =>
    rw [hcons] at hsubmit hbroadcast
    rw [htodo, hin']
    obtain ⟨hs, hb⟩ := hstill fun _ => follow_still (s := s.setTodo j rest) (k := j) (t := t)
    refine ⟨hin, fun c last ht => ?_, fun m ht => ?_⟩
    · rcases List.mem_append.mp ht with ht | ht
      · exact hs c last ht
      · exact hsubmit c last (List.mem_cons_of_mem t ht)
    · rcases List.mem_append.mp ht with ht | ht
      · exact hb m ht
      · exact hbroadcast m (List.mem_cons_of_mem t ht)
  | refuse _ _ hr _ _ _ =>
    rw [hrsm] at hr
    cases hr
  | @serve f rest _ _ hcons _ hin' htodo =>
    rw [hcons] at hin
    rw [htodo, hin']
    have hne (u : Finset E) : f ≠ .binary u := fun hf => hin u (hf ▸ List.mem_cons_self ..)
    exact ⟨fun u hu => hin u (List.mem_cons_of_mem f hu),
      hstill fun _ => Client.frameTasks_still hne⟩
  | fail _ _ _ _ hin' htodo =>
    rw [htodo, hin']
    exact ⟨fun _ => List.not_mem_nil, hstill fun _ => still_closingTasks⟩

namespace Steady

/-- A page that closes its connection has answered. -/
theorem step_answered (h : s.Steady code) (hst : s.step cfg x = some s') (hrsm : cfg.rsm = false)
    (hx : s.Synced code x) (hcode : (s'.conn j).client.code = code)
    (hc : (s'.conn j).tab.connected = false) (diff : Finset E) (userID : String) :
    Tab.syncUpdate diff userID ∉ (s'.conn j).inbox := by
  by_cases hj : j < s.next
  · have hcode' : (s.conn j).client.code = code := (step_stays hst hj).code ▸ hcode
    have hold : Tab.syncUpdate diff userID ∉ (s.conn j).inbox := by
      cases hc' : (s.conn j).tab.connected with
      | false => exact h.answered j hcode' hc' diff userID
      | true =>
        have hleaves := (connected_step hst hj hc').resolve_left (by rw [hc]; exact Bool.false_ne_true)
        have hinbox := (hx.leaves j hj ⟨hcode', hc'⟩ hleaves).2
        rw [List.any_eq_false] at hinbox
        exact fun hf => hinbox _ hf rfl
    cases step_handler hst j with
    | page _ _ hin =>
      rw [hin, sends_eq_nil hst hc, List.append_nil]
      exact hold
    | connect _ hnew _ => exact absurd hnew hj.ne
    | run _ _ _ hin _ => exact hin ▸ hold
    | refuse _ _ hr _ _ _ =>
      rw [hrsm] at hr
      cases hr
    | serve _ _ hcons _ hin _ =>
      rw [hcons] at hold
      rw [hin]
      exact fun hf => hold (List.mem_cons_of_mem _ hf)
    | fail _ _ _ _ hin _ =>
      rw [hin]
      exact fun hf => by cases hf
  · obtain hnew | ⟨_, _, _, -, hnew⟩ := step_new hst h.attached.wf hj <;> rw [hnew] <;>
      exact fun hf => by cases hf

/-- The connections of a user go on having one that takes updates. -/
theorem step_alone (h : s.Steady code) (hst : s.step cfg x = some s') (hrsm : cfg.rsm = false)
    (hx : s.Synced code x) (hq : s'.On code q) (hne : r ≠ q)
    (hcode : (s'.conn r).client.code = code)
    (hid : (s'.conn r).client.id = (s'.conn q).client.id) :
    .register ∈ (s'.conn r).todo ∨ s'.Pushes r = false := by
  have hwf := h.attached.wf
  obtain ⟨hlt, hpage, hon⟩ := on_of_step hst hwf (h.attached.step hst hrsm hx.keeps) hq
  by_cases hr : r < s.next
  · rw [(step_stays hst hr).code] at hcode
    rw [(step_stays hst hr).id, (step_stays hst hlt).id] at hid
    rcases hon with hon | hreg
    · have hopening (hmem : .register ∈ (s.conn r).todo) : .register ∈ (s'.conn r).todo :=
        (register_step hst (h.attached.attended r) hmem).resolve_left fun hreg =>
          hx.keeps r hreg q (hid ▸ hon.2) hpage
      by_cases hc : (s.conn r).tab.connected = true
      · obtain hreg | hmem := h.attached.registered r ⟨hcode, hc⟩
        · exact absurd (On.eq_of_id ⟨⟨hcode, hc⟩, hreg⟩ hon hid) hne
        · exact .inl (hopening hmem)
      · refine (h.alone q r hon hne hcode hid).imp hopening (step_pushes hst hrsm hr ?_)
        refine sends_eq_nil hst (Bool.eq_false_iff.mpr fun hc' => ?_)
        obtain hc' | ⟨_, _, _, -, hnew, -⟩ := step_connected hst hc'
        · exact hc hc'
        · exact hr.ne hnew
    · obtain ⟨rfl, -⟩ := registers_eq hreg
      refine (hx.alone q hreg hpage.1 r hr hne hcode hid).imp (fun hmem => ?_)
        (step_pushes hst hrsm hr rfl)
      refine (register_step hst (h.attached.attended r) (opening_iff.mp hmem)).resolve_left ?_
      rw [hreg, Option.some.injEq]
      exact hne.symm
  · obtain hnew | ⟨_, _, _, -, hnew⟩ := step_new hst hwf hr
    · exact .inr (pushes_eq_false.mpr (by rw [hnew]; exact ⟨fun _ => List.not_mem_nil,
        fun _ _ => List.not_mem_nil, fun _ => List.not_mem_nil⟩))
    · left
      rw [hnew]
      simp [Conn.fresh, openingTasks]

/-- An update is submitted before it is broadcast. -/
theorem step_submitted (h : s.Steady code) (hst : s.step cfg x = some s') (hrsm : cfg.rsm = false)
    (hcode : (s'.conn r).client.code = code) {u : Finset E}
    (htodo : (s'.conn r).todo = [.broadcast (.binary u)]) : s'.sessions.getDoc code ≠ none := by
  have hmem : .broadcast (.binary u) ∈ (s'.conn r).todo := htodo ▸ List.mem_singleton_self _
  have hstill (hts : ∀ t ∈ (s'.conn r).todo, t.Still) : False := hts _ hmem
  by_cases hr : r < s.next
  · rw [(step_stays hst hr).code] at hcode
    cases step_handler hst r with
    | page _ hsame _ =>
      exact getDoc_ne_none hst hrsm h.regular (h.submitted r u hcode (hsame ▸ htodo))
    | connect _ hnew _ => exact absurd hnew hr.ne
    | @run t rest hx hcons _ _ hrest =>
      subst hx
      cases h.regular.pushing r with
      | still hold =>
        refine (hstill fun t' ht' => ?_).elim
        rw [hrest] at ht'
        rcases List.mem_append.mp ht' with ht' | ht'
        · exact follow_still ht'
        · exact hold t' (hcons ▸ List.mem_cons_of_mem t ht')
      | @submit u hsubmit _ =>
        rw [← hcode, getDoc_of_submit hst hsubmit]
        exact Option.some_ne_none u
      | broadcast hbroadcast _ =>
        cases hcons.symm.trans hbroadcast
        rw [hrest] at htodo
        cases htodo
    | refuse _ _ hr _ _ _ =>
      rw [hrsm] at hr
      cases hr
    | @serve f rest _ _ _ _ _ hframe =>
      by_cases hbinary : ∃ v, f = .binary v
      · obtain ⟨v, rfl⟩ := hbinary
        rw [htodo, Client.frameTasks, Client.binaryTasks] at hframe
        split at hframe <;> cases hframe
      · refine (hstill fun t ht => ?_).elim
        rw [hframe] at ht
        exact Client.frameTasks_still (fun v hv => hbinary ⟨v, hv⟩) ht
    | fail _ _ _ _ _ hclosing => exact (hstill fun t ht => still_closingTasks (hclosing ▸ ht)).elim
  · obtain hnew | ⟨_, _, _, -, hnew⟩ := step_new hst h.attached.wf hr
    · rw [hnew] at hmem
      cases hmem
    · exact (hstill fun t ht => still_openingTasks (by rwa [hnew] at ht)).elim

theorem step (h : s.Steady code) (hst : s.step cfg x = some s') (hrsm : cfg.rsm = false)
    (hhonest : x.honest = true) (hx : s.Synced code x) : s'.Steady code where
  attached := h.attached.step hst hrsm hx.keeps
  regular := h.regular.step h.attached.wf hst hrsm hhonest
  answered _ hcode hc := h.step_answered hst hrsm hx hcode hc
  alone _ _ hq hne hcode hid := h.step_alone hst hrsm hx hq hne hcode hid
  submitted _ _ hcode htodo := h.step_submitted hst hrsm hcode htodo

omit [DecidableEq E] [Edit E] in
theorem initial : (initial : Ide E).Steady code where
  attached := .initial
  regular := .initial
  answered _ _ _ _ _ := List.not_mem_nil
  alone _ _ hq _ _ _ := absurd hq.1.2 Bool.false_ne_true
  submitted _ _ _ htodo := by cases htodo

omit [DecidableEq E] [Edit E] in
/-- Two connections of one user, of which the hub has one and the other pushes an update, are
one. -/
theorem eq_of_pushes (h : s.Steady code) (hq : s.On code q) (hcode : (s.conn r).client.code = code)
    (hid : (s.conn r).client.id = (s.conn q).client.id) (hr : .register ∉ (s.conn r).todo)
    (hp : s.Pushes r ≠ false) : r = q := by
  by_contra hne
  exact (h.alone q r hq hne hcode hid).elim hr hp

/-- A page whose answer is passed on is a page that the hub has. -/
theorem on_of_answers (h : s.Steady code) (hst : s.step cfg (.serve r) = some s')
    (hcode : (s.conn r).client.code = code) {diff : Finset E} {userID : String}
    (hf : Tab.syncUpdate diff userID ∈ (s.conn r).inbox.head?) : s.On code r := by
  cases stepped hst with
  | serve hidle _ =>
    have hc : (s.conn r).tab.connected = true := by
      by_contra hc
      exact h.answered r hcode (Bool.eq_false_iff.mpr hc) diff userID (List.mem_of_mem_head? hf)
    refine ⟨⟨hcode, hc⟩, (h.attached.registered r ⟨hcode, hc⟩).resolve_right ?_⟩
    rw [hidle.2]
    exact List.not_mem_nil

end Steady

/-- An edit in an answer that is passed on is not fresh. -/
theorem not_fresh_of_answers (hst : s.step cfg (.serve r) = some s') {diff : Finset E}
    {userID : String} (hf : Tab.syncUpdate diff userID ∈ (s.conn r).inbox.head?) (he : e ∈ diff) :
    ¬ (s.conn r).Fresh e := by
  obtain ⟨rest, hin⟩ := List.head?_eq_some_iff.mp hf
  cases stepped hst with
  | serve hidle _ =>
    rintro (⟨u, last, ht, -⟩ | ⟨u, hfind⟩)
    · rw [hidle.2] at ht
      cases ht
    · have hanswer : e ∈ (Tab.syncUpdate diff userID).message.edits := he
      rw [hin, List.find?_cons, decide_eq_true hanswer] at hfind
      cases hfind

namespace Converging

omit [DecidableEq E] [Edit E] in
theorem initial [DecidableEq E] : (initial : Ide E).Converging code e where
  steady := .initial
  opening _ hp := absurd hp.2 Bool.false_ne_true
  doc _ hd := by cases hd
  pages _ hp := absurd hp.1.2 Bool.false_ne_true

/-- What a page has before the hub has it is fresh. -/
theorem fresh_of_opening (h : s.Converging code e) (hst : s.step cfg x = some s')
    (hrsm : cfg.rsm = false) (hx : s.Synced code x) (hp : s.Page code p)
    (hmem : .register ∈ (s.conn p).todo) (hr : (s'.conn p).Reaches e) : (s'.conn p).Fresh e := by
  have ha := h.steady.attached
  have hreg := h.steady.regular
  have hlt := ha.wf.lt_of_connected hp.2
  obtain ⟨hnot, hpipe⟩ := ha.opening p hmem
  have hold (hdoc : e ∈ (s.conn p).tab.doc) : (s'.conn p).Fresh e := by
    obtain hfresh | ⟨u, -, htodo, -⟩ :=
      step_fresh hst hrsm ha.wf hreg hx.byEditor hp (h.opening p hp hmem hdoc)
    · exact hfresh
    · rw [htodo] at hmem
      simp at hmem
  obtain (hdoc | ⟨m, hm, -⟩) | ⟨he, -⟩ | ⟨m, hm, -⟩ | ⟨m, hm, -⟩ := reaches_of_step hst hlt hr
  · exact hold hdoc
  · rw [hpipe] at hm
    cases hm
  · by_cases hdoc : e ∈ (s.conn p).tab.doc
    · exact hold hdoc
    · exact fresh_of_acts hst hreg hlt hdoc he
  · exact absurd (posted_registered ha.wf (by rw [hm]; exact Option.some_ne_none m)) hnot
  · rw [opening_writes (ha.attended p) hmem] at hm
    cases hm

/-- An edit that a page gets with a step has been sent on by a page, or the server has it, or a
handler broadcasts it. -/
theorem sent_of_step (h : s.Converging code e) (hst : s.step cfg x = some s')
    (hrsm : cfg.rsm = false) (hx : s.Synced code x) (ha' : s'.Attached code) (hp : s'.On code p)
    (hr : (s'.conn p).Reaches e) (hf : ¬ (s'.conn p).Fresh e) :
    (∃ r, s.On code r ∧ (s.conn r).Reaches e ∧ ¬ (s.conn r).Fresh e) ∨
      (∃ d, s'.sessions.getDoc code = some d ∧ e ∈ d) ∨
      ∃ r u, x = .run r ∧ (s.conn r).client.code = code ∧
        (s.conn r).todo = [.broadcast (.binary u)] ∧ u ⊆ (s.conn r).tab.doc ∧ e ∈ u := by
  have ha := h.steady.attached
  have hreg := h.steady.regular
  obtain ⟨hlt, hpage, hon | hnew⟩ := on_of_step hst ha.wf ha' hp
  · have hold (hr : (s.conn p).Reaches e) :
        (∃ r, s.On code r ∧ (s.conn r).Reaches e ∧ ¬ (s.conn r).Fresh e) ∨
          ∃ d, s'.sessions.getDoc code = some d ∧ e ∈ d := by
      by_cases hfresh : (s.conn p).Fresh e
      · obtain hfresh' | ⟨u, rfl, htodo, he⟩ :=
          step_fresh hst hrsm ha.wf hreg hx.byEditor hpage hfresh
        · exact absurd hfresh' hf
        · refine .inr ⟨u, ?_, he⟩
          rw [← hpage.1]
          exact getDoc_of_submit hst htodo
      · exact .inl ⟨p, hon, hr, hfresh⟩
    obtain hr | ⟨he, -⟩ | ⟨m, hm, he⟩ | ⟨m, hm, he⟩ := reaches_of_step hst hlt hr
    · exact (hold hr).imp_right .inl
    · by_cases hdoc : e ∈ (s.conn p).tab.doc
      · exact (hold (.inl hdoc)).imp_right .inl
      · exact absurd (fresh_of_acts hst hreg hlt hdoc he) hf
    · cases posts hreg hm with
      | @document r u hrun htodo hu hothers =>
        exact .inr (.inr ⟨r, u, hrun, hothers.1.2.symm.trans hpage.1, htodo, hu, he⟩)
      | stateVector _ _ _ => cases he
      | @answer r diff toID hserve hhead hto =>
        subst hserve
        left
        have hcode : (s.conn r).client.code = code :=
          hx.sameSession r rfl p hlt hpage (by rw [hm]; rfl)
        exact ⟨r, h.steady.on_of_answers hst hcode hhead,
          .inl ((hreg.sent r _ (List.mem_of_mem_head? hhead)).edits he),
          not_fresh_of_answers hst hhead he⟩
      | other hother =>
        rw [WSMessage.edits_of_syncs hother] at he
        cases he
    · obtain ⟨rfl, rest, d, htodo, hd, he⟩ := writes_edit hm he
      rw [hpage.1] at hd
      refine .inr (.inl ⟨d, ?_, he⟩)
      obtain hsame | ⟨r, u, hrun, -, htodo', -⟩ := step_getDoc code hst hrsm hreg
      · exact hsame.trans hd
      · cases hrun
        cases htodo.symm.trans htodo'
  · obtain ⟨-, rest, htodo⟩ := registers_eq hnew
    exact absurd (h.fresh_of_opening hst hrsm hx hpage (htodo ▸ List.mem_cons_self ..) hr) hf

/-- What is owed to a page that is registered in a step: it gets the server's document. -/
theorem sendDoc_of_registers (hst : s.step cfg x = some s') (ha : s.Attached code)
    (hnew : s.registers x = some q) : .sendDoc ∈ (s'.conn q).todo := by
  obtain ⟨rfl, rest, htodo⟩ := registers_eq hnew
  have hmem : .register ∈ (s.conn q).todo := htodo ▸ List.mem_cons_self ..
  rw [run_todo hst htodo]
  obtain hopen | hopen := (ha.attended q).register hmem
  · rw [htodo] at hopen
    cases hopen
  · rw [htodo] at hopen
    obtain ⟨-, rfl⟩ := List.cons.inj hopen
    simp

/-- The pages get what the server has. -/
theorem step_doc (h : s.Converging code e) (hst : s.step cfg x = some s') (hrsm : cfg.rsm = false)
    (hx : s.Synced code x) (ha' : s'.Attached code) {d : Finset E}
    (hd : s'.sessions.getDoc code = some d) (he : e ∈ d) (hq : s'.On code q) :
    s'.Due code e q := by
  have ha := h.steady.attached
  obtain ⟨hlt, hpage, hon | hnew⟩ := on_of_step hst ha.wf ha' hq
  · obtain hsame | ⟨r, u, rfl, hcode, htodo, hu, hdoc⟩ :=
      step_getDoc code hst hrsm h.steady.regular
    · rw [hsame] at hd
      obtain hdue | ⟨rfl, rest, htodo⟩ := step_due hst hrsm ha.wf hx.room hon (h.doc d hd he q hon)
      · exact hdue
      · rw [← hpage.1] at hd
        exact .inl (.inr ⟨_, document_of_sendDoc hst hlt htodo hd, he⟩)
    · -- the update that takes the place of the document is broadcast next
      rw [hdoc, Option.some.injEq] at hd
      subst hd
      by_cases hid : (s.conn r).client.id = (s.conn q).client.id
      · have hrq := h.steady.eq_of_pushes hon hcode hid (by rw [htodo]; simp) fun hp =>
          (pushes_eq_false.mp hp).2.1 _ _ (htodo ▸ List.mem_cons_self ..)
        exact .inl (.inl ((step_stays hst hlt).doc (hrq ▸ hu he)))
      · have hr := ha.wf.lt_of_todo htodo
        refine .inr (.inr ⟨r, u, (step_stays hst hr).code.trans hcode, ?_, he, ?_⟩)
        · rw [run_todo hst htodo]
          exact List.mem_singleton_self _
        · rw [(step_stays hst hr).id, (step_stays hst hlt).id]
          exact hid
  · exact .inr (.inl (sendDoc_of_registers hst ha hnew))

/-- Every page is owed what a page has sent on. -/
theorem step_pages (h : s.Converging code e) (hst : s.step cfg x = some s') (hrsm : cfg.rsm = false)
    (hx : s.Synced code x) (ha' : s'.Attached code) (hp : s'.On code p)
    (hr : (s'.conn p).Reaches e) (hf : ¬ (s'.conn p).Fresh e) :
    s'.sessions.getDoc code ≠ none ∧ ∀ q, s'.On code q → s'.Owed code e q := by
  have ha := h.steady.attached
  have hreg := h.steady.regular
  obtain ⟨r, hon, hr, hf⟩ | ⟨d, hd, he⟩ | ⟨r, u, rfl, hcode, htodo, hu, he⟩ :=
    h.sent_of_step hst hrsm hx ha' hp hr hf
  · obtain ⟨hdoc, howed⟩ := h.pages r hon hr hf
    refine ⟨getDoc_ne_none hst hrsm hreg hdoc, fun q hq => ?_⟩
    obtain ⟨-, -, hon' | hnew⟩ := on_of_step hst ha.wf ha' hq
    · exact step_owed hst hrsm ha.wf hreg hx hon hr hdoc hon' (howed q hon')
    · exact .inl (.inr (.inl (sendDoc_of_registers hst ha hnew)))
  · refine ⟨by rw [hd]; exact Option.some_ne_none d, fun q hq => ?_⟩
    exact .inl (h.step_doc hst hrsm hx ha' hd he hq)
  · refine ⟨getDoc_ne_none hst hrsm hreg (h.steady.submitted r u hcode htodo), fun q hq => ?_⟩
    obtain ⟨hlt, -, hon | hnew⟩ := on_of_step hst ha.wf ha' hq
    · refine .inl (.inl ?_)
      by_cases hid : (s.conn r).client.id = (s.conn q).client.id
      · have hrq := h.steady.eq_of_pushes hon hcode hid (by rw [htodo]; simp) fun hp =>
          (pushes_eq_false.mp hp).2.2 _ (htodo ▸ List.mem_cons_self ..)
        exact .inl ((step_stays hst hlt).doc (hrq ▸ hu he))
      · exact reaches_of_broadcast hst ha.wf hx.room hon htodo hcode hid he
    · obtain ⟨hrun, rest, htodo'⟩ := registers_eq hnew
      cases hrun
      cases htodo.symm.trans htodo'

/-- A step that loses nothing keeps the invariant. -/
theorem step (h : s.Converging code e) (hst : s.step cfg x = some s') (hrsm : cfg.rsm = false)
    (hhonest : x.honest = true) (hx : s.Synced code x) : s'.Converging code e := by
  have hsteady := h.steady.step hst hrsm hhonest hx
  refine ⟨hsteady, fun j hp hmem hdoc => ?_, fun d hd he q hq => ?_, fun p hp hr hf => ?_⟩
  · obtain hc | ⟨_, _, _, -, -, hfresh⟩ := step_connected hst hp.2
    · have hlt := h.steady.attached.wf.lt_of_connected hc
      have hpage : s.Page code j := ⟨(step_stays hst hlt).code ▸ hp.1, hc⟩
      obtain hmem | ⟨_, _, _, -, hnew, -⟩ := register_of_step hst hmem
      · exact h.fresh_of_opening hst hrsm hx hpage hmem (.inl hdoc)
      · exact absurd hnew hlt.ne
    · rw [hfresh] at hdoc
      cases hdoc
  · exact h.step_doc hst hrsm hx hsteady.attached hd he hq
  · exact h.step_pages hst hrsm hx hsteady.attached hp hr hf

omit [Edit E] in
/-- Once all is delivered, what is owed to a page has got there. -/
theorem mem_doc (h : s.Converging code e) (hquiet : s.Quiet code) (hp : s.Page code p)
    (hq : s.Page code q) (he : e ∈ (s.conn p).tab.doc) : e ∈ (s.conn q).tab.doc := by
  have ha := h.steady.attached
  have hidle (r : ℕ) (hr : s.Page code r) :
      (s.conn r).todo = [] ∧ (s.conn r).inbox = [] ∧ (s.conn r).pipeline = [] := by
    obtain ⟨htodo, hin, hpipe⟩ := hquiet r (ha.wf.lt_of_connected hr.2) hr.1
    exact ⟨htodo, hin (ha.serving r hr.2), hpipe hr.2⟩
  have hon (r : ℕ) (hr : s.Page code r) : s.On code r := by
    refine ⟨hr, (ha.registered r hr).resolve_right ?_⟩
    rw [(hidle r hr).1]
    exact List.not_mem_nil
  have hfresh : ¬ (s.conn p).Fresh e := by
    rintro (⟨u, last, ht, -⟩ | ⟨u, hfind⟩)
    · rw [(hidle p hp).1] at ht
      cases ht
    · rw [(hidle p hp).2.1] at hfind
      cases hfind
  obtain ⟨htodo, hin, hpipe⟩ := hidle q hq
  obtain ((hdoc | ⟨m, hm, -⟩) | hsend | ⟨r, u, hcode, ht, -⟩) | (⟨u, hm⟩ | ⟨data, -, hf⟩) |
    ⟨r, hr, ⟨data, -, hsv⟩ | ⟨diff, -, hf⟩⟩ := (h.pages p (hon p hp) (.inl he) hfresh).2 q (hon q hq)
  · exact hdoc
  · rw [hpipe] at hm
    cases hm
  · rw [htodo] at hsend
    cases hsend
  · have hr : r < s.next := ha.wf.lt_of_ne fun hu => by rw [hu] at ht; cases ht
    rw [(hquiet r hr hcode).1] at ht
    cases ht
  · rw [hpipe] at hm
    cases hm
  · rw [hin] at hf
    cases hf
  · rw [(hidle r hr).2.2] at hsv
    obtain ⟨-, hm⟩ | ⟨m, -, hm⟩ := hsv <;> cases hm
  · rw [(hidle r hr).2.1] at hf
    cases hf

end Converging

theorem converging_of_reach (hrsm : cfg.rsm = false)
    (hs : (machine cfg).Reach (fun s x => x.honest = true ∧ s.Synced code x) s) :
    s.Converging code e :=
  hs.invariant (I := fun s => s.Converging code e) (fun s h => by cases h; exact .initial)
    fun _ _ _ _ h hok hst => h.step hst hrsm hok.1 hok.2

/-- **Connected pages converge**: in a run in which no message about the document is lost, all
pages that are connected have the same edits once all is delivered. -/
theorem pages_converge (hrsm : cfg.rsm = false)
    (hs : (machine cfg).Reach (fun s x => x.honest = true ∧ s.Synced code x) s)
    (hquiet : s.Quiet code) (hp : s.Page code p) (hq : s.Page code q) :
    (s.conn p).tab.doc = (s.conn q).tab.doc := by
  ext e
  have h : s.Converging code e := converging_of_reach hrsm hs
  exact ⟨h.mem_doc hquiet hp hq, h.mem_doc hquiet hq hp⟩

/-- Both edit before they get the other's update. -/
theorem pages_converge_crossing : ∃ s : Ide ℕ, (s.conn 0).tab.doc = (s.conn 1).tab.doc ∧
    (s.conn 1).tab.doc = {0, 1, 2} := by
  obtain ⟨s, hs, hv⟩ := (machine single).reach_of_run
    (fun s x => x.honest = true ∧ s.Synced "abc" x)
    (f := fun s => (decide (s.Quiet "abc" ∧ s.Page "abc" 0 ∧ s.Page "abc" 1), (s.conn 1).tab.doc))
    (v := (true, {0, 1, 2}))
    (twoEditors ++ [.edit 0 {1}, .edit 1 {2}] ++ takes 0 ++ takes 1 ++ gets 0 ++ [.serve 0] ++
      gets 1 ++ [.serve 1] ++ gets 0 ++ gets 1)
    rfl (by decide +kernel)
  simp only [Prod.mk.injEq, decide_eq_true_eq] at hv
  obtain ⟨⟨hquiet, hp, hq⟩, hdoc⟩ := hv
  exact ⟨s, pages_converge rfl hs hquiet hp hq, hdoc⟩

end Ide

end CollabIde
