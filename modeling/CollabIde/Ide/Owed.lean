import CollabIde.Ide.EditorsOnly
import CollabIde.Ide.Sync

/-!
# What pages are owed

An edit `e` of a page gets to the other pages of its session with the page's update, with the
document of a new connection, or with the answer to a state vector that lacks it. A page that does
not have it is owed it (`Ide.Owed`): a handler has still to broadcast it, the page will ask with its
state vector, or a page that has it will answer. The debt is kept by every step that loses no
message about the document (`Ide.Synced`), as long as a page has the edit (`step_owed`).
-/

namespace CollabIde

variable {E : Type}

/-- The frame with a state vector. -/
def stateVectorFrame (data : Finset E) (sender : String) : Frame E :=
  .text (some { type := "sync_sv" }) (some (.syncSv data sender))

namespace Conn

variable (c : Conn E) (e : E)

/-- The page has the edit, or will have it by a message that is on its way. -/
def Reaches : Prop := e ∈ c.tab.doc ∨ ∃ m ∈ c.pipeline, e ∈ m.edits

/-- The page's document has been sent to no other page with the edit, as the update with it has not
been submitted. -/
def Fresh [DecidableEq E] : Prop :=
  (∃ u last, .submit (.crdtUpdate ⟨c.client.code, u⟩) last ∈ c.todo ∧ e ∈ u) ∨
    ∃ u, c.inbox.find? (fun f => e ∈ f.message.edits) = some (.binary u)

/-- A state vector of the page that lacks the edit is on its way to the handler, or the page will
send its state vector for a document that is on its way. -/
def Asks : Prop :=
  (∃ u, .binary u ∈ c.pipeline) ∨ ∃ data, e ∉ data ∧ stateVectorFrame data c.client.id ∈ c.inbox

/-- The page will answer a state vector of the user with the edit, or has answered. -/
def Answers (userID : String) : Prop :=
  (∃ data, e ∉ data ∧ (e ∈ c.tab.doc ∧ .text (some (.syncSv data userID)) ∈ c.pipeline ∨
    ∃ m, e ∈ m.edits ∧ [m, .text (some (.syncSv data userID))].Sublist c.pipeline)) ∨
  ∃ diff, e ∈ diff ∧ Tab.syncUpdate diff userID ∈ c.inbox

end Conn

namespace Ide

variable {cfg : Config E} {s s' : Ide E} {x : Action E} {code : String} {e : E} {j k p q r : ℕ}

section Owed

variable (s) (code : String) (e : E)

/-- A page of the session that the hub has. -/
def On (q : ℕ) : Prop := s.Page code q ∧ s.Registered q

/-- A handler of another user has still to broadcast the edit. -/
def Broadcasts (q : ℕ) : Prop := ∃ r u, (s.conn r).client.code = code ∧
  .broadcast (.binary u) ∈ (s.conn r).todo ∧ e ∈ u ∧ (s.conn r).client.id ≠ (s.conn q).client.id

/-- An edit of the server's document gets to the page without the help of other pages. -/
def Due (q : ℕ) : Prop :=
  (s.conn q).Reaches e ∨ .sendDoc ∈ (s.conn q).todo ∨ s.Broadcasts code e q

/-- The page will get the edit. -/
def Owed (q : ℕ) : Prop := s.Due code e q ∨ (s.conn q).Asks e ∨
  ∃ r, s.Page code r ∧ (s.conn r).Answers e (s.conn q).client.id

end Owed

/-! ## The condition -/

section Synced

variable (s) (code : String)

/-- The client is still to be registered. -/
def Opening (k : ℕ) : Bool := (s.conn k).todo.any fun
  | .register => true
  | _ => false

/-- An update of the client is still to be read, submitted or broadcast. -/
def Pushes (k : ℕ) : Bool :=
  ((s.conn k).inbox.any fun
    | .binary _ => true
    | _ => false) ||
  (s.conn k).todo.any fun
    | .submit (.crdtUpdate _) _ | .broadcast _ => true
    | _ => false

/-- No message about the document is discarded. -/
def HasRoom (x : Action E) : Prop := ∀ j < s.next, s.Page code j → ∀ m ∈ s.posted x j,
  m.syncs = true → (s.conn j).client.send.length < sendCap

/-- When a connection is registered, nothing of an earlier one of its user is under way. -/
def Alone (x : Action E) : Prop := ∀ k ∈ s.registers x, (s.conn k).client.code = code →
  ∀ j < s.next, j ≠ k → (s.conn j).client.code = code →
    (s.conn j).client.id = (s.conn k).client.id → s.Opening j = true ∨ s.Pushes j = false

/-- The handler of a page takes its updates. -/
def ByEditor (x : Action E) : Prop := ∀ k ∈ x.served, s.Page code k →
  ((s.conn k).inbox.head?.any fun
    | .binary _ => true
    | _ => false) = true → (s.conn k).client.role = "editor"

/-- An answer comes from a page of the session. -/
def SameSession (x : Action E) : Prop := ∀ r ∈ x.served, ∀ j < s.next, s.Page code j →
  (s.posted x j).isSome = true → (s.conn r).client.code = code

variable [DecidableEq E] [Edit E]

/-- The page closes its connection. -/
def Leaves (x : Action E) (k : ℕ) : Prop :=
  match x with
  | .hangUp i => i = k
  | .receive i => i = k ∧ ((s.conn k).socket.head?.any fun m =>
      !((s.conn k).tab.onMessage m).1.connected) = true
  | _ => False

instance (x : Action E) (k : ℕ) : Decidable (s.Leaves x k) :=
  match x with
  | .hangUp _ => inferInstanceAs (Decidable (_ = _))
  | .receive _ => inferInstanceAs (Decidable (_ ∧ _))
  | .create .. | .join .. | .connect .. | .run _ | .refuse _ | .replicate _ | .serve _ | .fail _
  | .pump _ | .edit .. | .starter .. | .send .. => .isFalse id

/-- A page that closes its connection owes no answer. -/
def LeavesAnswered (x : Action E) : Prop := ∀ k < s.next, s.Page code k → s.Leaves x k →
  ((s.conn k).pipeline.any fun
    | .text (some (.syncSv _ _)) => true
    | _ => false) = false ∧
  ((s.conn k).inbox.any fun
    | .text _ (some (.syncUpdate _)) => true
    | _ => false) = false

/-- A step loses nothing about the document of the session. -/
structure Synced (x : Action E) : Prop where
  room : s.HasRoom code x
  keeps : s.KeepsPages code x
  alone : s.Alone code x
  byEditor : s.ByEditor code x
  leaves : s.LeavesAnswered code x
  sameSession : s.SameSession code x

instance (x : Action E) : Decidable (s.Synced code x) :=
  have : Decidable (s.HasRoom code x) := inferInstanceAs (Decidable (∀ j < _, _))
  have : Decidable (s.Alone code x) := inferInstanceAs (Decidable (∀ k ∈ s.registers x, _))
  have : Decidable (s.ByEditor code x) := inferInstanceAs (Decidable (∀ k ∈ x.served, _))
  have : Decidable (s.SameSession code x) := inferInstanceAs (Decidable (∀ r ∈ x.served, _))
  have : Decidable (s.LeavesAnswered code x) := inferInstanceAs (Decidable (∀ k < _, _))
  decidable_of_iff (s.HasRoom code x ∧ s.KeepsPages code x ∧ s.Alone code x ∧ s.ByEditor code x ∧
      s.LeavesAnswered code x ∧ s.SameSession code x)
    ⟨fun ⟨h1, h2, h3, h4, h5, h6⟩ => ⟨h1, h2, h3, h4, h5, h6⟩,
      fun ⟨h1, h2, h3, h4, h5, h6⟩ => ⟨h1, h2, h3, h4, h5, h6⟩⟩

end Synced

variable [DecidableEq E] [Edit E]

omit [DecidableEq E] [Edit E] in
theorem pipeline_sublist : (s.conn j).pipeline.Sublist
    ((s.conn j).socket ++ s.writes cfg x j ++ (s.conn j).client.send) := by
  rw [List.append_assoc]
  exact (List.Sublist.refl _).append (List.sublist_append_right _ _)

/-- What is on its way to a page stays on its way or gets there. -/
theorem step_mem_pipeline (h : s.step cfg x = some s') (hj : j < s.next) {m : WSMessage E}
    (hm : m ∈ (s.conn j).pipeline) : m ∈ (s'.conn j).pipeline ∨
      x = .receive j ∧ m ∈ (s.conn j).socket.head? ∧
        (s'.conn j).tab = ((s.conn j).tab.onMessage m).1 := by
  cases step_flow h hj with
  | page _ hpipe =>
    left
    rw [hpipe]
    exact List.mem_append_left _ (pipeline_sublist.mem hm)
  | @receive m' hx hhead hpipe htab =>
    rw [hpipe] at hm
    rcases List.mem_cons.mp hm with rfl | hm
    · exact .inr ⟨hx, hhead, htab⟩
    · exact .inl hm

/-- An edit that reaches a page goes on doing so. -/
theorem step_reaches (h : s.step cfg x = some s') (hj : j < s.next)
    (hr : (s.conn j).Reaches e) : (s'.conn j).Reaches e := by
  obtain hdoc | ⟨m, hm, he⟩ := hr
  · exact .inl ((step_stays h hj).doc hdoc)
  · obtain hm' | ⟨-, -, htab⟩ := step_mem_pipeline h hj hm
    · exact .inr ⟨m, hm', he⟩
    · left
      rw [htab, Tab.onMessage_doc]
      exact Finset.mem_union_right _ he

/-- A message that is sent to a page with room gets there behind the others. -/
theorem step_posted (h : s.step cfg x = some s') (hj : j < s.next) {m : WSMessage E}
    (hm : s.posted x j = some m) (hroom : (s.conn j).client.send.length < sendCap) :
    ∃ l, (s'.conn j).pipeline = l ++ [m] ∧ (s.conn j).pipeline.Sublist l := by
  cases step_flow h hj with
  | page _ hpipe =>
    rw [if_pos hroom, hm] at hpipe
    exact ⟨_, hpipe, pipeline_sublist⟩
  | receive hx _ _ _ =>
    rw [hx] at hm
    cases hm

/-- A page stays connected until it closes its connection. -/
theorem connected_step (h : s.step cfg x = some s') (hj : j < s.next)
    (hc : (s.conn j).tab.connected = true) :
    (s'.conn j).tab.connected = true ∨ s.Leaves x j := by
  cases step_delivery h j with
  | page htab _ _ =>
    rw [htab]
    unfold acts
    split
    · left
      split <;> exact hc
    · left
      split
      · exact (Tab.starter_connected _ _ _).trans hc
      · exact hc
    · split
      · rename_i hk
        exact .inr hk.symm
      · exact .inl hc
    · exact .inl hc
  | connect _ hnew _ => exact absurd hnew hj.ne
  | @receive m hx _ hm _ htab =>
    subst hx
    cases hc' : (s'.conn j).tab.connected with
    | true => exact .inl rfl
    | false =>
      refine .inr ⟨rfl, ?_⟩
      rw [hm, List.head?_cons, Option.any_some, ← htab, hc']
      rfl

/-- What a page that is connected has sent is read. -/
theorem step_mem_inbox (h : s.step cfg x = some s') (hrsm : cfg.rsm = false) (hj : j < s.next)
    (hc : (s.conn j).tab.connected = true) {f : Frame E} (hf : f ∈ (s.conn j).inbox) :
    f ∈ (s'.conn j).inbox ∨ x = .serve j ∧ f ∈ (s.conn j).inbox.head? := by
  cases step_handler h j with
  | page _ _ hin => exact .inl (hin ▸ List.mem_append_left _ hf)
  | connect _ hnew _ => exact absurd hnew hj.ne
  | run _ _ _ hin _ => exact .inl (hin ▸ hf)
  | refuse _ _ hr _ _ _ =>
    rw [hrsm] at hr
    cases hr
  | serve hx _ hcons _ hin _ =>
    rw [hcons] at hf ⊢
    rcases List.mem_cons.mp hf with rfl | hf
    · exact .inr ⟨hx, rfl⟩
    · exact .inl (hin ▸ hf)
  | fail _ _ hdown _ _ _ =>
    rw [hc] at hdown
    cases hdown

/-- What a page answers to a message is on its way to the handler. -/
theorem receive_inbox (h : s.step cfg (.receive j) = some s') {m : WSMessage E}
    (hm : m ∈ (s.conn j).socket.head?) {f : Frame E} (hf : f ∈ ((s.conn j).tab.onMessage m).2) :
    f ∈ (s'.conn j).inbox := by
  cases step_handler h j with
  | page _ _ hin =>
    rw [hin, sends, if_pos rfl, hm]
    exact List.mem_append_right _ hf
  | connect hx _ _ => cases hx
  | run hx _ _ _ _ => cases hx
  | refuse hx _ _ _ _ _ => cases hx
  | serve hx _ _ _ _ _ => cases hx
  | fail hx _ _ _ _ _ => cases hx

/-- A page that asks for the edit goes on doing so, or it gets the edit, or its state vector is
passed on. -/
theorem step_asks (h : s.step cfg x = some s') (hrsm : cfg.rsm = false) (hj : j < s.next)
    (hc : (s.conn j).tab.connected = true) (hid : (s.conn j).tab.userID = (s.conn j).client.id)
    (ha : (s.conn j).Asks e) : (s'.conn j).Asks e ∨ (s'.conn j).Reaches e ∨
      ∃ data, e ∉ data ∧ x = .serve j ∧
        stateVectorFrame data (s.conn j).client.id ∈ (s.conn j).inbox.head? := by
  obtain ⟨u, hu⟩ | ⟨data, he, hf⟩ := ha
  · obtain hu' | ⟨rfl, hm, htab⟩ := step_mem_pipeline h hj hu
    · exact .inl (.inl ⟨u, hu'⟩)
    · by_cases he : e ∈ (s.conn j).tab.doc ∪ u
      · refine .inr (.inl (.inl ?_))
        rw [htab, Tab.onMessage_doc]
        exact he
      · refine .inl (.inr ⟨_, he, receive_inbox h hm ?_⟩)
        rw [(step_stays h hj).id, ← hid]
        exact List.mem_singleton_self _
  · obtain hf' | ⟨hx, hhead⟩ := step_mem_inbox h hrsm hj hc hf
    · refine .inl (.inr ⟨data, he, ?_⟩)
      rw [(step_stays h hj).id]
      exact hf'
    · exact .inr (.inr ⟨data, he, hx, hhead⟩)

/-- A page that will answer goes on doing so, or its answer is passed on. -/
theorem step_answers (h : s.step cfg x = some s') (hrsm : cfg.rsm = false) (hj : j < s.next)
    (hc : (s.conn j).tab.connected = true) {userID : String}
    (ha : (s.conn j).Answers e userID) : (s'.conn j).Answers e userID ∨
      ∃ diff, e ∈ diff ∧ x = .serve j ∧
        Tab.syncUpdate diff userID ∈ (s.conn j).inbox.head? := by
  obtain ⟨data, hdata, hsv⟩ | ⟨diff, he, hf⟩ := ha
  · left
    have hdoc := (step_stays h hj).doc
    cases step_flow h hj with
    | page htab hpipe =>
      have hsub : (s.conn j).pipeline.Sublist (s'.conn j).pipeline := by
        rw [hpipe]
        exact pipeline_sublist.trans (List.sublist_append_left _ _)
      refine .inl ⟨data, hdata, ?_⟩
      exact hsv.imp (fun ⟨he, hm⟩ => ⟨hdoc he, hsub.mem hm⟩)
        fun ⟨m, he, hm⟩ => ⟨m, he, hm.trans hsub⟩
    | @receive m hx hhead hpipe htab =>
      subst hx
      rw [hpipe] at hsv
      obtain ⟨he, hm⟩ | ⟨m', he, hm⟩ := hsv
      · rcases List.mem_cons.mp hm with rfl | hm
        · -- the page answers now
          have hdiff : e ∈ (s.conn j).tab.doc.filter
              fun e => e ∉ data ∨ Edit.deletes e = true :=
            Finset.mem_filter.mpr ⟨he, .inl hdata⟩
          refine .inr ⟨_, hdiff, receive_inbox h hhead ?_⟩
          simp only [Tab.onMessage]
          rw [if_neg (Finset.ne_empty_of_mem hdiff)]
          exact List.mem_singleton_self _
        · exact .inl ⟨data, hdata, .inl ⟨hdoc he, hm⟩⟩
      · cases hm with
        | cons _ hm => exact .inl ⟨data, hdata, .inr ⟨m', he, hm⟩⟩
        | cons_cons _ hm =>
          refine .inl ⟨data, hdata, .inl ⟨?_, List.singleton_sublist.mp hm⟩⟩
          rw [htab, Tab.onMessage_doc]
          exact Finset.mem_union_right _ he
  · obtain hf' | ⟨hx, hhead⟩ := step_mem_inbox h hrsm hj hc hf
    · exact .inl (.inr ⟨diff, he, hf'⟩)
    · exact .inr ⟨diff, he, hx, hhead⟩

/-- A task stays to be done until it is done. -/
theorem step_mem_todo (h : s.step cfg x = some s') (hrsm : cfg.rsm = false) (hwf : s.WF)
    {t : Task E} (ht : t ∈ (s.conn j).todo) :
    t ∈ (s'.conn j).todo ∨ x = .run j ∧ ∃ rest, (s.conn j).todo = t :: rest := by
  cases step_handler h j with
  | page _ htodo _ => exact .inl (htodo ▸ ht)
  | connect _ hnew _ =>
    rw [hwf.unused j hnew.ge] at ht
    cases ht
  | run hx hcons _ _ htodo =>
    rw [hcons] at ht
    rcases List.mem_cons.mp ht with rfl | ht
    · exact .inr ⟨hx, _, hcons⟩
    · exact .inl (htodo ▸ List.mem_append_right _ ht)
  | refuse _ _ hr _ _ _ =>
    rw [hrsm] at hr
    cases hr
  | serve _ hidle _ _ _ _ =>
    rw [hidle.2] at ht
    cases ht
  | fail _ hidle _ _ _ _ =>
    rw [hidle.2] at ht
    cases ht

omit [DecidableEq E] [Edit E] in
theorem On.lt (hq : s.On code q) (hwf : s.WF) : q < s.next := (hwf.registered hq.2).1

omit [DecidableEq E] [Edit E] in
/-- Two pages that the hub has are of two users. -/
theorem On.eq_of_id (hp : s.On code p) (hq : s.On code q)
    (hid : (s.conn p).client.id = (s.conn q).client.id) : p = q := by
  have hp' := hp.2
  rw [Registered, hid, hq.2] at hp'
  exact (Option.some.inj hp').symm

omit [DecidableEq E] [Edit E] in
theorem On.others (hq : s.On code q) (hcode : (s.conn r).client.code = code)
    (hid : (s.conn r).client.id ≠ (s.conn q).client.id) :
    s.Others (s.conn r).client.id (s.conn r).client.code q :=
  ⟨⟨hq.2, hq.1.1.trans hcode.symm⟩, hid.symm⟩

/-- A page with room gets the edit of a message that is sent to it. -/
theorem reaches_of_posted (h : s.step cfg x = some s') (hwf : s.WF) (hroom : s.HasRoom code x)
    (hq : s.On code q) {m : WSMessage E} (hm : s.posted x q = some m) (hsyncs : m.syncs = true)
    (he : e ∈ m.edits) : (s'.conn q).Reaches e := by
  have hlt := hq.lt hwf
  obtain ⟨l, hpipe, -⟩ := step_posted h hlt hm (hroom q hlt hq.1 m hm hsyncs)
  exact .inr ⟨m, by rw [hpipe]; exact List.mem_append_right _ (List.mem_singleton_self _), he⟩

/-- A document that a handler broadcasts gets to the pages of the other users. -/
theorem reaches_of_broadcast (h : s.step cfg (.run r) = some s') (hwf : s.WF)
    (hroom : s.HasRoom code (.run r)) (hq : s.On code q) {u : Finset E} {rest : List (Task E)}
    (htodo : (s.conn r).todo = .broadcast (.binary u) :: rest)
    (hcode : (s.conn r).client.code = code)
    (hid : (s.conn r).client.id ≠ (s.conn q).client.id) (he : e ∈ u) : (s'.conn q).Reaches e := by
  refine reaches_of_posted h hwf hroom hq (m := .binary u) ?_ rfl he
  simp only [posted, htodo, List.head?_cons, Option.bind_some, taskPost]
  exact if_pos (hq.others hcode hid)

/-- The server gives a page the edit, or reads its document for it. -/
theorem step_due (h : s.step cfg x = some s') (hrsm : cfg.rsm = false) (hwf : s.WF)
    (hroom : s.HasRoom code x) (hq : s.On code q) (hd : s.Due code e q) :
    s'.Due code e q ∨ x = .run q ∧ ∃ rest, (s.conn q).todo = .sendDoc :: rest := by
  have hlt := hq.lt hwf
  obtain hr | hdoc | ⟨r, u, hcode, ht, he, hid⟩ := hd
  · exact .inl (.inl (step_reaches h hlt hr))
  · exact (step_mem_todo h hrsm hwf hdoc).imp_left fun hdoc => .inr (.inl hdoc)
  · left
    have hr : r < s.next := hwf.lt_of_ne fun hu => by rw [hu] at ht; cases ht
    obtain ht' | ⟨rfl, rest, htodo⟩ := step_mem_todo h hrsm hwf ht
    · refine .inr (.inr ⟨r, u, (step_stays h hr).code.trans hcode, ht', he, ?_⟩)
      rw [(step_stays h hr).id, (step_stays h hlt).id]
      exact hid
    · exact .inl (reaches_of_broadcast h hwf hroom hq htodo hcode hid he)

/-- A new page gets the document. -/
theorem document_of_sendDoc (h : s.step cfg (.run q) = some s') (hlt : q < s.next)
    {rest : List (Task E)} (htodo : (s.conn q).todo = .sendDoc :: rest) {d : Finset E}
    (hd : s.sessions.getDoc (s.conn q).client.code = some d) :
    .binary d ∈ (s'.conn q).pipeline := by
  cases step_flow h hlt with
  | page _ hpipe =>
    rw [hpipe, writes, if_pos rfl, htodo, List.head?_cons, Option.elim_some, written, hd]
    simp
  | receive hx _ _ _ => cases hx

theorem step_page (h : s.step cfg x = some s') (hwf : s.WF) (hp : s.Page code p)
    (hl : ¬ s.Leaves x p) : s'.Page code p := by
  have hlt := hwf.lt_of_connected hp.2
  exact ⟨(step_stays h hlt).code.trans hp.1, (connected_step h hlt hp.2).resolve_right hl⟩

/-- A page that closes its connection has answered. -/
theorem LeavesAnswered.not_leaves (hl : s.LeavesAnswered code x) (hlt : r < s.next)
    (hr : s.Page code r) {userID : String} (ha : (s.conn r).Answers e userID) : ¬ s.Leaves x r := by
  intro hleaves
  obtain ⟨hpipe, hinbox⟩ := hl r hlt hr hleaves
  rw [List.any_eq_false] at hpipe hinbox
  obtain ⟨data, -, ⟨-, hm⟩ | ⟨m, -, hm⟩⟩ | ⟨diff, -, hf⟩ := ha
  · exact hpipe _ hm rfl
  · exact hpipe _ (hm.mem (List.mem_cons_of_mem m (List.mem_singleton_self _))) rfl
  · exact hinbox _ hf rfl

/-- A state vector that is passed on is answered by a page that has the edit, or will have it. -/
theorem answers_of_stateVector (h : s.step cfg (.serve q) = some s') (hwf : s.WF)
    (hroom : s.HasRoom code (.serve q)) (hq : s.On code q) (hp : s.On code p)
    (hid : (s.conn q).client.id ≠ (s.conn p).client.id) {data : Finset E} (he : e ∉ data)
    (hf : stateVectorFrame data (s.conn q).client.id ∈ (s.conn q).inbox.head?)
    (hr : (s.conn p).Reaches e) : (s'.conn p).Answers e (s.conn q).client.id := by
  have hlt := hp.lt hwf
  have hm : s.posted (.serve q) p = some (.text (some (.syncSv data (s.conn q).client.id))) := by
    simp only [posted, Option.mem_def.mp hf, Option.bind_some, stateVectorFrame, framePost]
    exact if_pos (hp.others hq.1.1 hid)
  obtain ⟨l, hpipe, hsub⟩ := step_posted h hlt hm (hroom p hlt hp.1 _ hm rfl)
  refine .inl ⟨data, he, ?_⟩
  rw [hpipe]
  obtain hdoc | ⟨m, hm, hem⟩ := hr
  · exact .inl ⟨(step_stays h hlt).doc hdoc, List.mem_append_right _ (List.mem_singleton_self _)⟩
  · exact .inr ⟨m, hem, ((List.singleton_sublist.mpr hm).trans hsub).append (List.Sublist.refl _)⟩

/-- The debt is kept, as long as a page has the edit. -/
theorem step_owed (h : s.step cfg x = some s') (hrsm : cfg.rsm = false) (hwf : s.WF)
    (hreg : s.Regular) (hx : s.Synced code x) (hp : s.On code p) (hr : (s.conn p).Reaches e)
    (hdoc : s.sessions.getDoc code ≠ none) (hq : s.On code q) (ho : s.Owed code e q) :
    s'.Owed code e q := by
  have hlt := hq.lt hwf
  have hid := (step_stays h hlt).id
  obtain hd | ha | ⟨r, hpage, ha⟩ := ho
  · obtain hd | ⟨rfl, rest, htodo⟩ := step_due h hrsm hwf hx.room hq hd
    · exact .inl hd
    · obtain ⟨d, hd⟩ := Option.ne_none_iff_exists'.mp hdoc
      rw [← hq.1.1] at hd
      exact .inr (.inl (.inl ⟨d, document_of_sendDoc h hlt htodo hd⟩))
  · obtain ha | hr' | ⟨data, he, rfl, hf⟩ := step_asks h hrsm hlt hq.1.2 (hreg.userID q) ha
    · exact .inr (.inl ha)
    · exact .inl (.inl hr')
    · by_cases hpq : p = q
      · exact .inl (.inl (step_reaches h hlt (hpq ▸ hr)))
      · have hne : (s.conn q).client.id ≠ (s.conn p).client.id := fun hid =>
          hpq (hp.eq_of_id hq hid.symm)
        refine .inr (.inr ⟨p, step_page h hwf hp.1 id, ?_⟩)
        rw [hid]
        exact answers_of_stateVector h hwf hx.room hq hp hne he hf hr
  · have hlt' := hwf.lt_of_connected hpage.2
    obtain ha' | ⟨diff, he, rfl, hf⟩ := step_answers h hrsm hlt' hpage.2 ha
    · refine .inr (.inr ⟨r, step_page h hwf hpage (hx.leaves.not_leaves hlt' hpage ha), ?_⟩)
      rw [hid]
      exact ha'
    · refine .inl (.inl (reaches_of_posted h hwf hx.room hq (m := .text (some (.syncUpdate diff)))
        ?_ rfl he))
      simp only [posted, Option.mem_def.mp hf, Option.bind_some, Tab.syncUpdate, framePost]
      exact if_pos ⟨hreg.named q hlt, hq.2⟩

/-! ## Edits that have not been sent on -/

/-- A fresh edit is fresh until its update is submitted. -/
theorem step_fresh (h : s.step cfg x = some s') (hrsm : cfg.rsm = false) (hwf : s.WF)
    (hreg : s.Regular) (hx : s.ByEditor code x) (hp : s.Page code p) (hf : (s.conn p).Fresh e) :
    (s'.conn p).Fresh e ∨ ∃ u, x = .run p ∧ (s.conn p).todo =
      [.submit (.crdtUpdate ⟨(s.conn p).client.code, u⟩) true, .broadcast (.binary u)] ∧ e ∈ u := by
  have hlt := hwf.lt_of_connected hp.2
  have hcode := (step_stays h hlt).code
  obtain ⟨u, last, ht, he⟩ | ⟨u, hfind⟩ := hf
  · obtain ht' | ⟨hrun, rest, htodo⟩ := step_mem_todo h hrsm hwf ht
    · exact .inl (.inl ⟨u, last, hcode ▸ ht', he⟩)
    · cases hreg.pushing p with
      | still hstill => exact (hstill _ ht).elim
      | submit htodo' _ =>
        cases htodo.symm.trans htodo'
        exact .inr ⟨u, hrun, htodo', he⟩
      | broadcast htodo' _ => cases htodo.symm.trans htodo'
  · left
    cases step_handler h p with
    | page _ _ hin =>
      right
      refine ⟨u, ?_⟩
      rw [hin, List.find?_append, hfind]
      rfl
    | connect _ hnew _ => exact absurd hnew hlt.ne
    | run _ _ _ hin _ => exact .inr ⟨u, hin ▸ hfind⟩
    | refuse _ _ hr _ _ _ =>
      rw [hrsm] at hr
      cases hr
    | @serve f rest hserve _ hcons _ hin htodo =>
      rw [hcons, List.find?_cons] at hfind
      split at hfind
      · rename_i he
        cases hfind
        have hrole : (s.conn p).client.role = "editor" := by
          refine hx p (by rw [hserve]; rfl) hp ?_
          rw [hcons]
          rfl
        refine .inl ⟨u, true, ?_, of_decide_eq_true he⟩
        rw [htodo, Client.frameTasks, Client.binaryTasks, if_pos hrole, hcode]
        exact List.mem_cons_self ..
      · exact .inr ⟨u, hin ▸ hfind⟩
    | fail _ _ hdown _ _ _ =>
      rw [hp.2] at hdown
      cases hdown

/-- Where an edit that reaches a page comes from. -/
theorem reaches_of_step (h : s.step cfg x = some s') (hj : j < s.next)
    (hr : (s'.conn j).Reaches e) : (s.conn j).Reaches e ∨
      (e ∈ (s.acts cfg x j).doc ∧ (s'.conn j).tab = s.acts cfg x j) ∨
      (∃ m, s.posted x j = some m ∧ e ∈ m.edits) ∨ ∃ m ∈ s.writes cfg x j, e ∈ m.edits := by
  cases step_flow h hj with
  | page htab hpipe =>
    obtain hdoc | ⟨m, hm, he⟩ := hr
    · exact .inr (.inl ⟨htab ▸ hdoc, htab⟩)
    · rw [hpipe, List.mem_append, List.mem_append, List.mem_append] at hm
      obtain ((hm | hm) | hm) | hm := hm
      · exact .inl (.inr ⟨m, List.mem_append_left _ hm, he⟩)
      · exact .inr (.inr (.inr ⟨m, hm, he⟩))
      · exact .inl (.inr ⟨m, List.mem_append_right _ hm, he⟩)
      · split at hm
        · exact .inr (.inr (.inl ⟨m, Option.mem_toList.mp hm, he⟩))
        · cases hm
  | @receive m _ _ hpipe htab =>
    left
    obtain hdoc | ⟨m', hm', he⟩ := hr
    · rw [htab, Tab.onMessage_doc] at hdoc
      rcases Finset.mem_union.mp hdoc with hdoc | he
      · exact .inl hdoc
      · exact .inr ⟨m, hpipe ▸ List.mem_cons_self .., he⟩
    · exact .inr ⟨m', hpipe ▸ List.mem_cons_of_mem m hm', he⟩

/-- A page sends its whole document with a new edit. -/
theorem sends_edit (h : s.step cfg x = some s') (hdoc : e ∉ (s.conn j).tab.doc)
    (he : e ∈ (s.acts cfg x j).doc) :
    ∃ u, (s.sends cfg x j).find? (fun f => e ∈ f.message.edits) = some (.binary u) := by
  have hact : (∃ es, x = .edit j es) ∨ ∃ es, x = .starter j es := by
    unfold acts at he
    split at he
    · split at he
      · rename_i hk
        exact .inl ⟨_, by rw [hk]⟩
      · exact absurd he hdoc
    · split at he
      · rename_i hk
        exact .inr ⟨_, by rw [hk]⟩
      · exact absurd he hdoc
    · split at he <;> exact absurd he hdoc
    · exact absurd he hdoc
  obtain ⟨es, rfl⟩ | ⟨es, rfl⟩ := hact
  · simp only [acts, if_true] at he
    cases stepped h with
    | edit hc hrole =>
      refine ⟨(s.conn j).tab.doc ∪ es, ?_⟩
      rw [sends, if_pos rfl, Tab.edit, if_pos ⟨hrole, hc⟩]
      exact List.find?_cons_of_pos (decide_eq_true he)
  · simp only [acts, if_true] at he
    cases stepped h with
    | starter hc =>
      rw [Tab.starter] at he
      split at he
      · rename_i hguard
        refine ⟨(s.conn j).tab.doc ∪ es, ?_⟩
        simp only [sends, if_true, Tab.starter, Tab.edit]
        rw [if_pos hguard, if_pos ⟨hguard.2.1, hc⟩]
        exact List.find?_cons_of_pos (decide_eq_true he)
      · exact absurd he hdoc

end Ide

end CollabIde
