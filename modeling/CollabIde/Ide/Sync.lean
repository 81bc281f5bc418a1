import CollabIde.Ide.Attached

/-!
# How edits travel

A page sends its whole document when it is edited, its state vector when it has got a document, and
an answer to a state vector that lacks something (`Tab.Sent`). The handler of an update submits it
and then broadcasts it (`Conn.Pushing`). `Ide.Posts` lists what the server puts into the queues of
pages about documents, and `Flow` what becomes of the messages for a page.
-/

namespace CollabIde

variable {E : Type}

/-- A message about the document: a document, a state vector or an answer to one. -/
def WSMessage.syncs : WSMessage E → Bool
  | .binary _ | .text (some (.syncSv _ _)) | .text (some (.syncUpdate _)) => true
  | _ => false

theorem WSMessage.edits_of_syncs {m : WSMessage E} (h : m.syncs = false) : m.edits = ∅ := by
  unfold syncs at h
  split at h
  · cases h
  · cases h
  · cases h
  · rename_i hbinary _ hanswer
    unfold edits
    split
    · exact absurd rfl (hbinary _)
    · exact absurd rfl (hanswer _)
    · rfl

/-- The message in a frame. -/
def Frame.message : Frame E → WSMessage E
  | .binary u => .binary u
  | .text _ t => .text t

/-- A frame as a page sends it. -/
inductive Tab.Sent (tab : Tab E) : Frame E → Prop
  | binary {u : Finset E} : u ⊆ tab.doc → Sent tab (.binary u)
  | stateVector {data : Finset E} :
    Sent tab (.text (some { type := "sync_sv" }) (some (.syncSv data tab.userID)))
  | answer {diff : Finset E} {sender : String} : diff ⊆ tab.doc →
    Sent tab (Tab.syncUpdate diff sender)
  | other {m : Option IncomingMsg} {t : Option (Text E)} : (WSMessage.text t).syncs = false →
    Sent tab (.text m t)

theorem Tab.Sent.mono {tab tab' : Tab E} {f : Frame E} (h : tab.Sent f)
    (hid : tab'.userID = tab.userID) (hdoc : tab.doc ⊆ tab'.doc) : tab'.Sent f := by
  cases h with
  | binary hu => exact .binary (hu.trans hdoc)
  | stateVector => exact hid ▸ .stateVector
  | answer hd => exact .answer (hd.trans hdoc)
  | other ht => exact .other ht

theorem Tab.Sent.edits {tab : Tab E} {f : Frame E} (h : tab.Sent f) :
    f.message.edits ⊆ tab.doc := by
  cases h with
  | binary hu => exact hu
  | stateVector => exact Finset.empty_subset _
  | answer hd => exact hd
  | other ht =>
    rw [Frame.message, WSMessage.edits_of_syncs ht]
    exact Finset.empty_subset _

theorem Frame.plain_syncs {m : Option IncomingMsg} {t : Option (Text E)}
    (h : (Frame.text m t).plain = true) : (WSMessage.text t).syncs = false := by
  cases t with
  | none => cases h
  | some t => cases t <;> first | rfl | cases h

namespace Tab

variable [DecidableEq E] [Edit E] (tab : Tab E)

theorem onMessage_sent {m : WSMessage E} {f : Frame E} (h : f ∈ (tab.onMessage m).2) :
    (tab.onMessage m).1.Sent f := by
  unfold onMessage at h ⊢
  split at h
  · rw [List.mem_singleton.mp h]
    exact .stateVector
  · cases h
  · split at h
    · cases h
    · split at h <;> cases h
    · cases h
    · dsimp only at h
      split at h
      · cases h
      · rw [List.mem_singleton.mp h]
        exact .answer (Finset.filter_subset ..)
    · cases h
    · cases h
    · cases h

omit [Edit E] in
theorem edit_sent {es : Finset E} {f : Frame E} (h : f ∈ (tab.edit es).2) :
    (tab.edit es).1.Sent f := by
  rw [edit_frames tab h]
  exact .binary subset_rfl

omit [Edit E] in
theorem starter_sent {emptyText : Finset E → Bool} {es : Finset E} {f : Frame E}
    (h : f ∈ (tab.starter emptyText es).2) : (tab.starter emptyText es).1.Sent f := by
  unfold starter at h ⊢
  split at h
  · rename_i hguard
    rw [if_pos hguard]
    dsimp only at h ⊢
    rcases List.mem_append.mp h with h | h
    · exact (edit_sent _ h).mono rfl subset_rfl
    · rw [List.mem_singleton.mp h]
      exact .stateVector
  · cases h

end Tab

/-- A task that neither submits an update nor passes a document on. -/
def Task.Still : Task E → Prop
  | .submit (.crdtUpdate _) _ | .broadcast _ => False
  | .broadcastAll m => m.syncs = false
  | _ => True

/-- The tasks of a handler: an update is submitted and then broadcast, and there is nothing else to
do. -/
inductive Conn.Pushing (c : Conn E) : Prop
  | still : (∀ t ∈ c.todo, t.Still) → Pushing c
  | submit {u : Finset E} : c.todo = [.submit (.crdtUpdate ⟨c.client.code, u⟩) true,
      .broadcast (.binary u)] → u ⊆ c.tab.doc → Pushing c
  | broadcast {u : Finset E} : c.todo = [.broadcast (.binary u)] → u ⊆ c.tab.doc → Pushing c

theorem Conn.Pushing.congr {c c' : Conn E} (h : c.Pushing) (htodo : c'.todo = c.todo)
    (hs : c.Stays c') : c'.Pushing := by
  cases h with
  | still hstill => exact .still (htodo ▸ hstill)
  | submit ht hu => exact .submit (hs.code ▸ htodo.trans ht) (hu.trans hs.doc)
  | broadcast ht hu => exact .broadcast (htodo.trans ht) (hu.trans hs.doc)

/-- The tasks for a frame other than an update. -/
theorem Client.frameTasks_still {c : Client E} {f : Frame E} (h : ∀ u, f ≠ .binary u) {t : Task E}
    (ht : t ∈ c.frameTasks f) : t.Still := by
  cases f with
  | binary u => exact absurd rfl (h u)
  | text m t =>
    cases m with
    | none => cases ht
    | some m =>
      simp only [frameTasks] at ht
      split at ht
      · unfold proposalTasks at ht
        repeat' split at ht
        all_goals simp only [List.mem_cons, List.not_mem_nil, or_false] at ht
        all_goals
          obtain rfl | rfl := ht
          · trivial
          · rfl
      · unfold roleChangeTasks at ht
        repeat' split at ht
        all_goals simp only [List.mem_cons, List.not_mem_nil, or_false] at ht
        obtain rfl | rfl | rfl | rfl := ht
        · trivial
        · trivial
        · rfl
        · trivial
      · cases ht

theorem still_openingTasks {t : Task E} (h : t ∈ openingTasks) : t.Still := by
  simp only [openingTasks, List.mem_cons, List.not_mem_nil, or_false] at h
  obtain rfl | rfl | rfl | rfl | rfl := h <;> trivial

theorem still_closingTasks {t : Task E} (h : t ∈ closingTasks) : t.Still := by
  simp only [closingTasks, List.mem_cons, List.not_mem_nil, or_false] at h
  obtain rfl | rfl := h <;> trivial

namespace Ide

variable {cfg : Config E} {s s' : Ide E} {x : Action E} {j k : ℕ}

theorem follow_still {t t' : Task E} (h : t' ∈ s.follow k t) : t'.Still := by
  cases t with
  | listParticipants =>
    rw [follow, List.mem_singleton] at h
    rw [h]
    rfl
  | _ => cases h

/-- Pages send what `Tab.Sent` says, and handlers push it. -/
structure Regular (s : Ide E) : Prop where
  sent : ∀ j, ∀ f ∈ (s.conn j).inbox, (s.conn j).tab.Sent f
  pushing : ∀ j, (s.conn j).Pushing
  userID : ∀ j, (s.conn j).tab.userID = (s.conn j).client.id
  named : ∀ j < s.next, (s.conn j).client.id ≠ ""

namespace Regular

theorem initial : (initial : Ide E).Regular where
  sent _ := nofun
  pushing _ := .still nofun
  userID _ := rfl
  named _ h := absurd h (Nat.not_lt_zero _)

variable [DecidableEq E] [Edit E]

omit [Edit E] in
theorem acts_userID : (s.acts cfg x j).userID = (s.conn j).tab.userID := by
  unfold acts
  split
  · split <;> rfl
  · split
    · exact Tab.starter_userID _ _ _
    · rfl
  · split <;> rfl
  · rfl

/-- What a page sends in a step. -/
theorem sends_sent (h : s.step cfg x = some s') (hx : x.honest = true) {f : Frame E}
    (hf : f ∈ s.sends cfg x j) : (s'.conn j).tab.Sent f := by
  cases stepped h with
  | @receive k m rest hm hc =>
    simp only [sends] at hf
    split at hf
    · rename_i hk
      subst hk
      rw [hm, List.head?_cons, Option.elim_some] at hf
      rw [setTab_conn, if_pos rfl]
      exact Tab.onMessage_sent _ hf
    · cases hf
  | @edit k es _ _ =>
    simp only [sends] at hf
    split at hf
    · rename_i hk
      subst hk
      rw [setTab_conn, if_pos rfl]
      exact Tab.edit_sent _ hf
    · cases hf
  | @starter k es _ =>
    simp only [sends] at hf
    split at hf
    · rename_i hk
      subst hk
      rw [setTab_conn, if_pos rfl]
      exact Tab.starter_sent _ hf
    · cases hf
  | @send k g _ =>
    simp only [sends] at hf
    split at hf
    · rw [List.mem_singleton.mp hf]
      cases g with
      | binary u => cases hx
      | text m t => exact .other (Frame.plain_syncs hx)
    · cases hf
  | _ => cases hf

theorem step_userID (h : s.step cfg x = some s') (hj : j < s.next) :
    (s'.conn j).tab.userID = (s.conn j).tab.userID := by
  cases step_delivery h j with
  | page htab _ _ => exact htab ▸ acts_userID
  | connect _ hnew _ => exact absurd hnew hj.ne
  | receive _ _ _ _ htab => exact htab ▸ Tab.onMessage_userID _ _

omit [DecidableEq E] [Edit E] in
/-- A handler goes on with what is behind its task. -/
theorem pushing_tail (h : (s.conn j).Pushing) {t : Task E} {rest : List (Task E)}
    (ht : (s.conn j).todo = t :: rest) {c : Conn E} {s₁ : Ide E}
    (hc : c.todo = s₁.follow j t ++ rest) (hs : (s.conn j).Stays c) : c.Pushing := by
  cases h with
  | still hstill =>
    rw [ht] at hstill
    refine .still fun t' ht' => ?_
    rw [hc] at ht'
    rcases List.mem_append.mp ht' with ht' | ht'
    · exact follow_still ht'
    · exact hstill t' (List.mem_cons_of_mem t ht')
  | submit htodo hu =>
    cases ht.symm.trans htodo
    exact .broadcast hc (hu.trans hs.doc)
  | broadcast htodo _ =>
    cases ht.symm.trans htodo
    exact .still fun t' ht' => by rw [hc] at ht'; cases ht'

theorem step_old (h : s.Regular) (hst : s.step cfg x = some s') (hrsm : cfg.rsm = false)
    (hx : x.honest = true) (hj : j < s.next) : (∀ f ∈ (s'.conn j).inbox, (s'.conn j).tab.Sent f) ∧
      (s'.conn j).Pushing := by
  have hs := step_stays hst hj
  have hold {f : Frame E} (hf : f ∈ (s.conn j).inbox) : (s'.conn j).tab.Sent f :=
    (h.sent j f hf).mono (step_userID hst hj) hs.doc
  cases step_handler hst j with
  | page _ htodo hin =>
    refine ⟨fun f hf => ?_, (h.pushing j).congr htodo hs⟩
    rw [hin] at hf
    exact (List.mem_append.mp hf).elim hold fun hf => sends_sent hst hx hf
  | connect _ hnew _ => exact absurd hnew hj.ne
  | run _ ht _ hin htodo =>
    exact ⟨fun f hf => hold (hin ▸ hf), pushing_tail (h.pushing j) ht htodo hs⟩
  | refuse _ _ hr _ _ _ =>
    rw [hrsm] at hr
    cases hr
  | @serve f rest _ _ hf _ hin htodo =>
    refine ⟨fun g hg => hold (hf ▸ List.mem_cons_of_mem f (hin ▸ hg)), ?_⟩
    have hsent := h.sent j f (hf ▸ List.mem_cons_self ..)
    by_cases hbinary : ∃ u, f = .binary u
    · obtain ⟨u, rfl⟩ := hbinary
      change _ = (s.conn j).client.binaryTasks u at htodo
      unfold Client.binaryTasks at htodo
      split at htodo
      · exact .submit (hs.code ▸ htodo) (hsent.edits.trans hs.doc)
      · exact .still fun t ht => by rw [htodo] at ht; cases ht
    · refine .still fun t ht => ?_
      rw [htodo] at ht
      exact Client.frameTasks_still (fun u hu => hbinary ⟨u, hu⟩) ht
  | fail _ _ _ _ hin htodo =>
    refine ⟨fun f hf => ?_, .still fun t ht => still_closingTasks (htodo ▸ ht)⟩
    rw [hin] at hf
    cases hf

theorem step (h : s.Regular) (hwf : s.WF) (hst : s.step cfg x = some s') (hrsm : cfg.rsm = false)
    (hx : x.honest = true) : s'.Regular := by
  refine ⟨fun j => ?_, fun j => ?_, fun j => ?_, fun j hj' => ?_⟩
  · by_cases hj : j < s.next
    · exact (h.step_old hst hrsm hx hj).1
    · obtain hc | ⟨_, _, _, -, hc⟩ := step_new hst hwf hj <;> rw [hc] <;>
        exact fun _ hf => by cases hf
  · by_cases hj : j < s.next
    · exact (h.step_old hst hrsm hx hj).2
    · obtain hc | ⟨_, _, _, -, hc⟩ := step_new hst hwf hj <;> rw [hc]
      · exact .still fun t ht => by cases ht
      · exact .still fun t ht => still_openingTasks ht
  · by_cases hj : j < s.next
    · exact (step_userID hst hj).trans ((h.userID j).trans (step_stays hst hj).id.symm)
    · obtain hc | ⟨_, _, _, -, hc⟩ := step_new hst hwf hj <;> rw [hc] <;> rfl
  · obtain hj | ⟨userID, _, _, hid, hc⟩ := step_lt hst hj'
    · exact (step_stays hst hj).id ▸ h.named j hj
    · rw [hc]
      exact hid

end Regular

/-! ## What the server sends to pages -/

section Posts

variable (s)

/-- A message that a step puts into the queue of connection `j`. -/
inductive Posts (x : Action E) (j : ℕ) : WSMessage E → Prop
  | document {r : ℕ} {u : Finset E} : x = .run r → (s.conn r).todo = [.broadcast (.binary u)] →
    u ⊆ (s.conn r).tab.doc → s.Others (s.conn r).client.id (s.conn r).client.code j →
    Posts x j (.binary u)
  | stateVector {r : ℕ} {data : Finset E} : x = .serve r →
    (Frame.text (some { type := "sync_sv" }) (some (.syncSv data (s.conn r).client.id)) : Frame E) ∈
      (s.conn r).inbox.head? →
    s.Others (s.conn r).client.id (s.conn r).client.code j →
    Posts x j (.text (some (.syncSv data (s.conn r).client.id)))
  | answer {r : ℕ} {diff : Finset E} {toID : String} : x = .serve r →
    Tab.syncUpdate diff toID ∈ (s.conn r).inbox.head? → s.clients toID = some j →
    Posts x j (.text (some (.syncUpdate diff)))
  | other {m : WSMessage E} : m.syncs = false → Posts x j m

end Posts

/-- A text is passed on as it is. -/
theorem framePost_text {m : Option IncomingMsg} {t : Option (Text E)} {m' : WSMessage E}
    (h : s.framePost k (.text m t) j = some m') : m' = .text t := by
  have hif {p : Prop} [Decidable p] (h : (if p then some (WSMessage.text t) else none) = some m') :
      m' = .text t := by
    split at h
    · exact (Option.some.inj h).symm
    · cases h
  cases m with
  | none => cases h
  | some m =>
    simp only [framePost] at h
    split at h
    · exact hif h
    · exact hif h
    · exact hif h
    · exact hif h
    · cases h

theorem posts (h : s.Regular) {m : WSMessage E} (hm : s.posted x j = some m) : s.Posts x j m := by
  cases x with
  | run r =>
    obtain ⟨t, ht, hm⟩ := Option.bind_eq_some_iff.mp hm
    obtain ⟨rest, htodo⟩ := List.head?_eq_some_iff.mp ht
    have hmem : t ∈ (s.conn r).todo := htodo ▸ List.mem_cons_self ..
    cases t with
    | broadcast m' =>
      simp only [taskPost] at hm
      split at hm
      · cases hm
        cases h.pushing r with
        | still hstill => exact (hstill _ hmem).elim
        | submit htodo' _ => cases htodo.symm.trans htodo'
        | broadcast htodo' hu =>
          cases htodo.symm.trans htodo'
          exact .document rfl htodo' hu ‹_›
      · cases hm
    | broadcastAll m' =>
      simp only [taskPost] at hm
      split at hm
      · cases hm
        cases h.pushing r with
        | still hstill => exact .other (hstill _ hmem)
        | submit htodo' _ => cases htodo.symm.trans htodo'
        | broadcast htodo' _ => cases htodo.symm.trans htodo'
      · cases hm
    | _ => cases hm
  | serve r =>
    obtain ⟨f, hf, hm⟩ := Option.bind_eq_some_iff.mp hm
    cases h.sent r f (List.mem_of_mem_head? hf) with
    | binary _ => cases hm
    | @stateVector data =>
      rw [h.userID r] at hf hm
      simp only [framePost] at hm
      split at hm
      · cases hm
        exact .stateVector rfl hf ‹_›
      · cases hm
    | @answer diff toID hdiff =>
      simp only [framePost, Tab.syncUpdate] at hm
      split at hm
      · rename_i hto
        cases hm
        exact .answer rfl hf hto.2
      · cases hm
    | other ht =>
      rw [framePost_text hm]
      exact .other ht
  | _ => cases hm

end Ide

end CollabIde
