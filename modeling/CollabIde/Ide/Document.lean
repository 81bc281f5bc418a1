import CollabIde.Ide.Pages

/-!
# The document on the server

A server's document is what the last update brought. In a run of the servers in which every page
that sends an update has had the document that it replaces, no edit is lost (`doc_keeps_edits`):
the page has merged it. Two editors who type at the same time send updates without having had the other's, and
none of the pages sends the merged document again (`doc_loses_edit`).
-/

namespace CollabIde.Ide

variable {E : Type} {cfg : Config E} {s s' : Ide E} {x : Action E} {k : ℕ}

/-- The command that a step applies. -/
def command (s : Ide E) : Action E → Option (Cmd (Finset E))
  | .create userID code => some (.session ⟨"create", code, userID, "editor"⟩)
  | .join userID code => some (.session ⟨"join", code, userID, "viewer"⟩)
  | .run k => match (s.conn k).todo with
    | .submit cmd _ :: _ => some cmd
    | _ => none
  | .replicate cmd => some cmd
  | _ => none

/-- What a step does to the sessions. -/
inductive Applies (s : Ide E) (x : Action E) (s' : Ide E) : Prop
  | none (sessions : s'.sessions = s.sessions) (applied : s'.applied = s.applied)
      (command : s.command x = none)
  | some (cmd : Cmd (Finset E)) (sessions : s'.sessions = s.sessions.doOp cmd)
      (applied : s'.applied = s.applied ++ cmd.update.toList) (command : s.command x = some cmd)

/-- A task other than a `submit` leaves the sessions. -/
theorem perform_sessions {t : Task E} (h : ∀ cmd last, t ≠ .submit cmd last) :
    (s.perform cfg k t).sessions = s.sessions ∧ (s.perform cfg k t).applied = s.applied := by
  unfold perform
  split
  case h_6 => exact absurd rfl (h _ _)
  case h_3 => split <;> exact ⟨rfl, rfl⟩
  case h_10 => unfold updateClientRole; split <;> exact ⟨rfl, rfl⟩
  case h_11 => unfold unregister; split <;> exact ⟨rfl, rfl⟩
  all_goals exact ⟨rfl, rfl⟩

theorem handleFrame_sessions (f : Frame E) :
    (s.handleFrame k f).sessions = s.sessions ∧ (s.handleFrame k f).applied = s.applied := by
  unfold handleFrame
  repeat' split
  all_goals exact ⟨rfl, rfl⟩

/-! ## Lost edits -/

/-- The document of every session contains every update that has been applied to it. -/
def KeepsEdits (s : Ide E) : Prop :=
  ∀ c ∈ s.applied, ∃ doc, s.sessions.getDoc c.sessionCode = some doc ∧ c.update ⊆ doc

/-- The update that a step applies contains the document that it replaces. -/
def ExtendsDoc (s : Ide E) (x : Action E) : Prop :=
  ∀ cmd ∈ s.command x, ∀ c ∈ cmd.update, ∀ doc ∈ s.sessions.getDoc c.sessionCode, doc ⊆ c.update

theorem KeepsEdits.applies (h : KeepsEdits s) (hs : Applies s x s') (hext : s.ExtendsDoc x) :
    KeepsEdits s' := by
  cases hs with
  | none hsess happ _ =>
    intro c hc
    rw [happ] at hc
    exact hsess ▸ h c hc
  | some cmd hsess happ hcmd =>
    intro c' hc'
    rw [happ, List.mem_append, Option.mem_toList] at hc'
    rw [hsess, Sessions.getDoc_doOp]
    cases cmd with
    | crdtUpdate c =>
      obtain hc' | hc' := hc'
      · obtain ⟨doc, hdoc, hsub⟩ := h c' hc'
        dsimp only
        split
        · rename_i hcode
          exact ⟨_, rfl, hsub.trans (hext _ hcmd c rfl doc (hcode ▸ hdoc))⟩
        · exact ⟨doc, hdoc, hsub⟩
      · cases hc'
        exact ⟨_, if_pos rfl, subset_rfl⟩
    | _ => exact h c' (hc'.resolve_right nofun)

variable [DecidableEq E] [Edit E]

theorem step_applies (h : s.step cfg x = some s') : Applies s x s' := by
  cases stepped h with
  | create _ => exact .some _ rfl rfl rfl
  | join => exact .some _ rfl rfl rfl
  | replicate _ => exact .some _ rfl rfl rfl
  | @run k t rest htodo =>
    cases t with
    | submit cmd last => exact .some cmd rfl rfl (by simp only [command, htodo])
    | _ =>
      refine .none (perform_sessions ?_).1 (perform_sessions ?_).2 (by simp only [command, htodo])
      all_goals nofun
  | serve _ _ => exact .none (handleFrame_sessions _).1 (handleFrame_sessions _).2 rfl
  | _ => exact .none rfl rfl rfl

end Ide

/-! ## What pages have had -/

/-- A page has got a document, or has sent its own. -/
inductive DocEvent (E : Type) where
  | received (doc : Finset E)
  | sent (doc : Finset E)
  deriving DecidableEq

namespace DocEvent

variable {E : Type}

def doc : DocEvent E → Finset E
  | .received doc | .sent doc => doc

def ofMessage : WSMessage E → Option (DocEvent E)
  | .binary u => some (.received u)
  | .text _ => none

def ofFrame : Frame E → Option (DocEvent E)
  | .binary u => some (.sent u)
  | .text _ _ => none

/-- What was sent second contains what was had first. -/
def Contained (a b : DocEvent E) : Prop := ∀ u, b = .sent u → a.doc ⊆ u

/-- A page has sent `u` after it had got or sent `doc`. -/
def SentAfter (doc u : Finset E) (log : List (DocEvent E)) : Prop :=
  List.Sublist [.received doc, .sent u] log ∨ List.Sublist [.sent doc, .sent u] log

instance [DecidableEq E] (doc u : Finset E) (log : List (DocEvent E)) :
    Decidable (SentAfter doc u log) := inferInstanceAs (Decidable (_ ∨ _))

theorem SentAfter.subset {doc u : Finset E} {log : List (DocEvent E)} (h : SentAfter doc u log)
    (hlog : log.Pairwise Contained) : doc ⊆ u := by
  rw [List.pairwise_iff_forall_sublist] at hlog
  exact h.elim (fun hs => hlog hs u rfl) fun hs => hlog hs u rfl

end DocEvent

/-- A server, and for each connection the documents that its page has got and sent. -/
structure Logged (E : Type) where
  ide : Ide E
  log : ℕ → List (DocEvent E)

namespace Logged

variable {E : Type} [DecidableEq E] [Edit E] {cfg : Config E} {s s' : Logged E}
  {x : Ide.Action E} {n j : ℕ}

variable (cfg s) in
/-- What happens at the page of connection `j` in a step. -/
def docEvent (x : Ide.Action E) (j : ℕ) : Option (DocEvent E) :=
  let c := s.ide.conn j
  match x with
  | .receive k => if k = j then c.socket.head?.bind DocEvent.ofMessage else none
  | .edit k es => if k = j then (c.tab.edit es).2.findSome? DocEvent.ofFrame else none
  | .starter k es =>
    if k = j then (c.tab.starter cfg.emptyText es).2.findSome? DocEvent.ofFrame else none
  | _ => none

variable (cfg s) in
def step (x : Ide.Action E) : Option (Logged E) :=
  (s.ide.step cfg x).map fun ide => ⟨ide, fun j => s.log j ++ (s.docEvent cfg x j).toList⟩

def initial : Logged E := ⟨.initial, fun _ => []⟩

variable (cfg) in
/-- The servers of a cluster, or a single one. -/
def machine (n : ℕ) : Machine (Fin n → Logged E) (Fin n × Ide.Action E) where
  init s := s = fun _ => initial
  step s x := ((s x.1).step cfg x.2).map (Function.update s x.1)

/-- The update that a step applies was sent by a page, of any server, that had had the document
which it replaces: it had got it, or sent it itself. -/
def HadDoc (s : Fin n → Logged E) (x : Fin n × Ide.Action E) : Prop :=
  ∀ cmd ∈ (s x.1).ide.command x.2, ∀ c ∈ cmd.update,
    ∀ doc ∈ (s x.1).ide.sessions.getDoc c.sessionCode,
      ∃ i, ∃ j < (s i).ide.next, DocEvent.SentAfter doc c.update ((s i).log j)

instance (s : Fin n → Logged E) (x : Fin n × Ide.Action E) : Decidable (HadDoc s x) :=
  inferInstanceAs (Decidable (∀ cmd ∈ _, ∀ c ∈ Cmd.update cmd, ∀ doc ∈ _, ∃ _, ∃ j < _, _))

/-- A page has merged what it has had. -/
structure Merged (s : Logged E) : Prop where
  wf : s.ide.WF
  unused : ∀ j, s.ide.next ≤ j → s.log j = []
  doc : ∀ j, ∀ e ∈ s.log j, e.doc ⊆ (s.ide.conn j).tab.doc
  contained : ∀ j, (s.log j).Pairwise DocEvent.Contained

omit [Edit E] in
/-- What a page sends of its document in an edit is all of it. -/
theorem edit_sent {tab : Tab E} {es : Finset E} {e : DocEvent E}
    (he : (tab.edit es).2.findSome? DocEvent.ofFrame = some e) : e = .sent (tab.doc ∪ es) := by
  obtain ⟨f, hf, hfe⟩ := List.exists_of_findSome?_eq_some he
  rw [Tab.edit_frames tab hf] at hfe
  exact (Option.some.inj hfe).symm

omit [Edit E] in
theorem starter_sent {tab : Tab E} {emptyText : Finset E → Bool} {es : Finset E} {e : DocEvent E}
    (he : (tab.starter emptyText es).2.findSome? DocEvent.ofFrame = some e) :
    e = .sent (tab.doc ∪ es) ∧ (tab.starter emptyText es).1.doc = tab.doc ∪ es := by
  obtain ⟨f, hf, hfe⟩ := List.exists_of_findSome?_eq_some he
  unfold Tab.starter at hf ⊢
  split at hf
  · rename_i hguard
    rw [if_pos hguard]
    rcases List.mem_append.mp hf with hf | hf
    · rw [Tab.edit_frames { tab with timer := false } hf] at hfe
      exact ⟨(Option.some.inj hfe).symm, rfl⟩
    · rw [List.mem_singleton.mp hf] at hfe
      cases hfe
  · cases hf

/-- What a page has in a step is in its document afterwards, and what it sends is no less than it
had before. -/
theorem docEvent_doc {ide : Ide E} (h : s.ide.step cfg x = some ide) {e : DocEvent E}
    (he : s.docEvent cfg x j = some e) : (s.ide.conn j).tab.connected = true ∧
      e.doc ⊆ (ide.conn j).tab.doc ∧ ∀ u, e = .sent u → (s.ide.conn j).tab.doc ⊆ u := by
  cases Ide.stepped h with
  | @receive k m rest hm hc =>
    simp only [docEvent] at he
    split at he
    · rename_i hk
      subst hk
      rw [hm] at he
      cases m with
      | binary u =>
        cases he
        refine ⟨hc, ?_, nofun⟩
        rw [Ide.setTab_conn, if_pos rfl]
        exact Finset.subset_union_right
      | text t => cases he
    · cases he
  | @edit k es hc _ =>
    simp only [docEvent] at he
    split at he
    · rename_i hk
      subst hk
      obtain rfl := edit_sent he
      refine ⟨hc, ?_, fun u hu => ?_⟩
      · rw [Ide.setTab_conn, if_pos rfl]
        exact subset_rfl
      · cases hu
        exact Finset.subset_union_left
    · cases he
  | @starter k es hc =>
    simp only [docEvent] at he
    split at he
    · rename_i hk
      subst hk
      obtain ⟨rfl, hdoc⟩ := starter_sent he
      refine ⟨hc, ?_, fun u hu => ?_⟩
      · rw [Ide.setTab_conn, if_pos rfl]
        exact hdoc.ge
      · cases hu
        exact Finset.subset_union_left
    · cases he
  | _ => cases he

namespace Merged

omit [DecidableEq E] [Edit E] in
theorem initial : (initial : Logged E).Merged where
  wf := ⟨fun _ _ => rfl, nofun⟩
  unused _ _ := rfl
  doc _ _ he := by cases he
  contained _ := .nil

theorem step (h : s.Merged) (hst : s.step cfg x = some s') : s'.Merged := by
  obtain ⟨ide, hide, rfl⟩ := Option.map_eq_some_iff.mp hst
  have hold (j : ℕ) (e : DocEvent E) (he : e ∈ s.log j) : e.doc ⊆ (ide.conn j).tab.doc := by
    obtain hstays | ⟨hj, -⟩ := Ide.step_stays_or hide j
    · exact (h.doc j e he).trans hstays.doc
    · rw [h.unused j hj.ge] at he
      cases he
  refine ⟨h.wf.step hide, fun j hj => ?_, fun j e he => ?_, fun j => ?_⟩
  · -- nothing happens at a connection that has not been opened
    have hj' := (Ide.step_next hide).trans hj
    dsimp only
    rw [h.unused j hj']
    cases he : s.docEvent cfg x j with
    | none => rfl
    | some e => exact absurd (h.wf.lt_of_connected (docEvent_doc hide he).1) (not_lt.mpr hj')
  · rcases List.mem_append.mp he with he | he
    · exact hold j e he
    · exact (docEvent_doc hide (Option.mem_toList.mp he)).2.1
  · refine List.pairwise_append.mpr ⟨h.contained j, ?_, fun a ha b hb u hu => ?_⟩
    · cases s.docEvent cfg x j with
      | none => exact .nil
      | some e => exact List.pairwise_singleton _ _
    · exact (h.doc j a ha).trans ((docEvent_doc hide (Option.mem_toList.mp hb)).2.2 u hu)

omit [DecidableEq E] [Edit E] in
/-- An update whose page has had the document that it replaces contains it. -/
theorem extendsDoc {s : Fin n → Logged E} (h : ∀ i, (s i).Merged) {x : Fin n × Ide.Action E}
    (hx : HadDoc s x) : (s x.1).ide.ExtendsDoc x.2 := by
  intro cmd hcmd c hc doc hdoc
  obtain ⟨i, j, -, hafter⟩ := hx cmd hcmd c hc doc hdoc
  exact hafter.subset ((h i).contained j)

end Merged

end Logged

/-- **The document keeps every edit**, as long as each update that is applied was sent by a page
that had had the document which it replaces. -/
theorem Ide.doc_keeps_edits {E : Type} [DecidableEq E] [Edit E] {cfg : Config E} {n : ℕ}
    {s : Fin n → Logged E} (hs : (Logged.machine cfg n).Reach Logged.HadDoc s) (i : Fin n) :
    (s i).ide.KeepsEdits := by
  have hkept : ∀ i, (s i).Merged ∧ (s i).ide.KeepsEdits := by
    refine hs.invariant (I := fun s => ∀ i, (s i).Merged ∧ (s i).ide.KeepsEdits) (fun s h0 => ?_)
      fun s x s' _ hi hx hst => ?_
    · cases h0
      exact fun i => ⟨.initial, fun c hc => by cases hc⟩
    · obtain ⟨t, ht, rfl⟩ := Option.map_eq_some_iff.mp hst
      have hext := Logged.Merged.extendsDoc (fun i => (hi i).1) hx
      refine (Function.forall_update_iff s fun _ (t : Logged E) => t.Merged ∧ t.ide.KeepsEdits).mpr
        ⟨⟨(hi x.1).1.step ht, ?_⟩, fun i _ => hi i⟩
      obtain ⟨ide, hide, rfl⟩ := Option.map_eq_some_iff.mp ht
      exact (hi x.1).2.applies (Ide.step_applies hide) hext
  exact (hkept i).2

namespace Ide

/-! ## Two editors -/

/-- A node of its own. -/
def single : Config ℕ := ⟨false, 0, fun d => d = ∅⟩

/-- A page connects, up to the loop of its handler. -/
def opens (k : ℕ) (userID role : String) : List (Action ℕ) :=
  .connect userID "abc" role :: List.replicate 6 (.run k)

/-- The page handles the next message of its queue. -/
def gets (k : ℕ) : List (Action ℕ) := [.pump k, .receive k]

/-- The handler takes a frame with an update. -/
def takes (k : ℕ) : List (Action ℕ) := [.serve k, .run k, .run k]

/-- Ann creates the session, her page inserts the starter program (the edit 0), and she makes Bob
an editor, whose page gets the document. -/
def twoEditors : List (Action ℕ) :=
  .create "ann" "abc" :: opens 0 "ann" "editor" ++ gets 0 ++ [.starter 0 {0}] ++ takes 0 ++
    [.serve 0,
      .send 0 (.text (some { type := "role_change", userID := "bob", role := "editor" })
        (some (.roleChange "bob" "editor"))), .serve 0] ++
    List.replicate 5 (.run 0) ++ opens 1 "bob" "editor" ++ [.receive 1, .serve 1] ++
    gets 0 ++ gets 0 ++ gets 0 ++ gets 0 ++ gets 1

/-- What a server does in a run of several. -/
def on {n : ℕ} (i : Fin n) (xs : List (Action ℕ)) : List (Fin n × Action ℕ) := xs.map (i, ·)

/-- Ann has a page at each of two servers; one inserts the starter program, and the other edits
it. -/
def twoServers : List (Fin 2 × Action ℕ) :=
  on 0 (.create "ann" "abc" :: opens 0 "ann" "editor" ++ [.starter 0 {0}] ++ takes 0) ++
    on 1 ([.replicate (.session ⟨"create", "abc", "ann", "editor"⟩),
      .replicate (.crdtUpdate ⟨"abc", {0}⟩)] ++ opens 0 "ann" "editor" ++ gets 0 ++
      [.edit 0 {1}, .serve 0] ++ takes 0) ++
    on 0 [.replicate (.crdtUpdate ⟨"abc", {0, 1}⟩)]

theorem doc_keeps_turns : ∃ s : Fin 2 → Logged ℕ,
    (∀ i, (s i).ide.sessions.getDoc "abc" = some {0, 1}) ∧ ∀ i, (s i).ide.KeepsEdits := by
  obtain ⟨s, hs, hv⟩ := (Logged.machine { single with rsm := true } 2).reach_of_run Logged.HadDoc
    (f := fun s => decide (∀ i, (s i).ide.sessions.getDoc "abc" = some {0, 1})) (v := true)
    twoServers rfl (by decide +kernel)
  exact ⟨s, of_decide_eq_true hv, doc_keeps_edits hs⟩

/-- Both edit before they get the other's update; then all is delivered. -/
theorem doc_loses_edit : ¬ ∀ s : Ide ℕ, (machine single).Reach (fun _ x => x.honest) s →
    s.Quiet "abc" → KeepsEdits s := by
  intro h
  obtain ⟨s, hs, hv⟩ := (machine single).reach_of_run (fun _ x => x.honest)
    (f := fun s => (decide (s.Quiet "abc"), s.applied, s.sessions.getDoc "abc"))
    (v := (true, [⟨"abc", {0}⟩, ⟨"abc", {0, 1}⟩, ⟨"abc", {0, 2}⟩], some {0, 2}))
    (twoEditors ++ [.edit 0 {1}, .edit 1 {2}] ++ takes 0 ++ takes 1 ++ gets 0 ++ [.serve 0] ++
      gets 1 ++ [.serve 1] ++ gets 0 ++ gets 1)
    rfl rfl
  simp only [Prod.mk.injEq, decide_eq_true_eq] at hv
  obtain ⟨hq, happ, hdoc⟩ := hv
  obtain ⟨doc, hdoc', hsub⟩ := h s hs hq ⟨"abc", {0, 1}⟩ (by rw [happ]; simp)
  rw [hdoc, Option.some.injEq] at hdoc'
  subst hdoc'
  exact absurd hsub (by decide)

end CollabIde.Ide
