import CollabIde.Ide.Review

/-!
# Decisions and announcements on their way

A decision of a page is under way from the click until its handler submits it (`Conn.Decides`):
a step neither makes one up (`decides_of_step`) nor loses one, but for a handler that drops it
(`step_decides`). A handler that has submitted a proposal or a decision announces it with its next
task, its last one (`Ide.Orderly`); no other message changes the list of a page.
-/

namespace CollabIde

variable {E : Type}

/-- What an action makes of a proposal: listed or not. -/
def listed : String → Option Bool
  | "add" => some true
  | "accept" | "reject" => some false
  | _ => none

theorem listed_eq_true {action : String} : listed action = some true ↔ action = "add" := by
  unfold listed
  split <;> simp_all

theorem listed_eq_false {action : String} :
    listed action = some false ↔ action = "accept" ∨ action = "reject" := by
  unfold listed
  split <;> simp_all

theorem listed_eq_none {action : String} (hadd : action ≠ "add") (haccept : action ≠ "accept")
    (hreject : action ≠ "reject") : listed action = none := by
  unfold listed
  split
  · exact absurd rfl hadd
  · exact absurd rfl haccept
  · exact absurd rfl hreject
  · rfl

def Text.lists (id : String) : Text E → Option Bool
  | .proposal action p => if p.id = id then listed action else none
  | _ => none

def WSMessage.lists (id : String) : WSMessage E → Option Bool
  | .text (some t) => t.lists id
  | _ => none

/-- What the server passes on is no proposal. -/
def Frame.Tidy : Frame E → Prop
  | .text (some m) (some t) => m.type = "proposal" ∨ ∀ id, t.lists id = none
  | _ => True

/-- A task that has nothing to do with proposals. -/
def Task.Plain : Task E → Prop
  | .submit (.proposal _) _ => False
  | .broadcast m | .broadcastAll m => ∀ id, m.lists id = none
  | _ => True

/-- The action and the proposal's ID of a submit. -/
def Task.decision : Task E → Option (String × String)
  | .submit (.proposal c) _ => some (c.action, c.id)
  | _ => none

namespace Conn

variable (c : Conn E)

/-- The page's decision has not been submitted. -/
def Decides (action id : String) : Prop :=
  (c.serving = true ∧ ∃ f ∈ c.inbox, f.decision = some (action, id)) ∨
    ∃ t ∈ c.todo, t.decision = some (action, id)

instance (action id : String) : Decidable (c.Decides action id) :=
  inferInstanceAs (Decidable (_ ∨ _))

/-- The tasks of a handler: a submit about a proposal is followed by its announcement, and there is
nothing else to do. -/
inductive Orderly : Prop
  | plain : (∀ t ∈ c.todo, t.Plain) → Orderly
  | submit {cmd : ProposalCmd} {p : Proposal} : c.todo = [.submit (.proposal cmd) false,
      .broadcastAll (.text (some (.proposal cmd.action p)))] → cmd.sessionCode = c.client.code →
    p.id = cmd.id → (listed cmd.action).isSome → Orderly
  | announce {action : String} {p : Proposal} :
    c.todo = [.broadcastAll (.text (some (.proposal action p)))] → (listed action).isSome → Orderly

end Conn

theorem Conn.Orderly.congr {c c' : Conn E} (h : c.Orderly) (htodo : c'.todo = c.todo)
    (hcode : c'.client.code = c.client.code) : c'.Orderly := by
  cases h with
  | plain hplain => exact .plain (htodo ▸ hplain)
  | submit ht hc hid hlisted => exact .submit (htodo.trans ht) (hc.trans hcode.symm) hid hlisted
  | announce ht hlisted => exact .announce (htodo.trans ht) hlisted

/-- Whether the server has a pending proposal with the ID. -/
def Sessions.pending {U : Type} (ss : Sessions U) (code id : String) : Bool :=
  ((ss code).bind fun st => st.proposals id).isSome

namespace Sessions

variable {U : Type} (ss : Sessions U)

theorem pending_set {code : String} {st : SessionState U} (code' id : String) :
    (ss.set code st).pending code' id =
      if code' = code then (st.proposals id).isSome else ss.pending code' id := by
  unfold pending set
  split
  · rename_i h
    rw [h, Function.update_self, Option.bind_some]
  · rename_i h
    rw [Function.update_of_ne h]

theorem getOrCreate_proposals (code id : String) :
    ((ss.getOrCreate code).proposals id).isSome = ss.pending code id := by
  unfold getOrCreate pending
  cases ss code <;> rfl

theorem pending_set_same {code : String} {st : SessionState U}
    (h : st.proposals = (ss.getOrCreate code).proposals) (code' id : String) :
    (ss.set code st).pending code' id = ss.pending code' id := by
  rw [pending_set]
  split
  · rename_i hc
    rw [h, getOrCreate_proposals, hc]
  · rfl

theorem pending_doProposal (c : ProposalCmd) (code id : String) :
    (ss.doProposal c).pending code id =
      if code = c.sessionCode ∧ id = c.id then (listed c.action).getD (ss.pending code id)
      else ss.pending code id := by
  have hupdate {st : SessionState U} {o : Option Proposal}
      (h : st.proposals = Function.update (ss.getOrCreate c.sessionCode).proposals c.id o) :
      (ss.set c.sessionCode st).pending code id =
        if code = c.sessionCode ∧ id = c.id then o.isSome else ss.pending code id := by
    rw [pending_set, h]
    by_cases hc : code = c.sessionCode
    · by_cases hid : id = c.id
      · rw [if_pos hc, if_pos ⟨hc, hid⟩, hid, Function.update_self]
      · rw [if_pos hc, if_neg fun h => hid h.2, Function.update_of_ne hid, getOrCreate_proposals,
          hc]
    · rw [if_neg hc, if_neg fun h => hc h.1]
  unfold doProposal
  dsimp only
  split
  · rename_i h
    rw [h]
    exact hupdate (o := some _) (by rfl)
  · rename_i h
    rw [h]
    exact hupdate (o := none) (by rfl)
  · rename_i h
    rw [h]
    exact hupdate (o := none) (by rfl)
  · rename_i hadd haccept hreject
    rw [pending_set_same ss rfl, listed_eq_none hadd haccept hreject]
    split <;> rfl

/-- Only commands about a proposal change what is pending. -/
theorem pending_doOp (cmd : Cmd U) (code id : String) : (ss.doOp cmd).pending code id =
    match cmd with
    | .proposal c => if code = c.sessionCode ∧ id = c.id then
        (listed c.action).getD (ss.pending code id) else ss.pending code id
    | _ => ss.pending code id := by
  cases cmd with
  | proposal c => exact ss.pending_doProposal c code id
  | crdtUpdate c => exact pending_set_same ss (by rfl) code id
  | roleChange c => exact pending_set_same ss (by rfl) code id
  | session c =>
    simp only [doOp, doSession]
    split
    · exact pending_set_same ss (by rfl) code id
    · refine pending_set_same ss ?_ code id
      split <;> rfl
    · rfl

end Sessions

/-! ## Frames and tasks -/

theorem Frame.decision_of_text {m : IncomingMsg} {t : Option (Text E)} {action id : String}
    (h : (Frame.text (some m) t).decision = some (action, id)) :
    m.type = "proposal" ∧ (action = "accept" ∨ action = "reject") ∧ m.action = action ∧
      m.proposal = some id := by
  simp only [Frame.decision] at h
  split at h
  · rename_i hm
    obtain ⟨id', hid, h⟩ := Option.map_eq_some_iff.mp h
    cases h
    exact ⟨hm.1, hm.2, rfl, hid⟩
  · cases h

theorem Frame.plain_of_proposes {f : Frame E} (hf : f.proposes = false) :
    f.decision = none ∧ f.Tidy := by
  cases f with
  | binary u => exact ⟨rfl, trivial⟩
  | text m t =>
    simp only [Frame.proposes, Bool.or_eq_false_iff] at hf
    obtain ⟨hm, ht⟩ := hf
    constructor
    · cases m with
      | none => rfl
      | some m => exact if_neg fun h => absurd h.1 (by simpa using hm)
    · cases m with
      | none => trivial
      | some m => cases t with
        | none => trivial
        | some t => cases t with
          | proposal action p => cases ht
          | _ => exact .inr fun _ => rfl

/-- The tasks for a frame about a proposal: none, or the submit and the announcement. -/
theorem Client.proposalTasks_cases (c : Client E) (m : IncomingMsg) : c.proposalTasks m = [] ∨
    ∃ cmd p, c.proposalTasks m = [.submit (.proposal cmd) false,
        .broadcastAll (.text (some (.proposal cmd.action p)))] ∧
      cmd.sessionCode = c.code ∧ p.id = cmd.id ∧ m.action = cmd.action ∧
      (cmd.action = "add" ∨
        (cmd.action = "accept" ∨ cmd.action = "reject") ∧ m.proposal = some cmd.id) := by
  unfold proposalTasks
  split
  · rename_i hadd
    split
    · exact .inl rfl
    · exact .inr ⟨_, _, rfl, rfl, rfl, hadd, .inl rfl⟩
  · rename_i haccept
    split
    · exact .inl rfl
    · cases hid : m.proposal with
      | none => exact .inl rfl
      | some id => exact .inr ⟨_, _, rfl, rfl, rfl, rfl, .inr ⟨.inl haccept, rfl⟩⟩
  · rename_i hreject
    split
    · exact .inl rfl
    · cases hid : m.proposal with
      | none => exact .inl rfl
      | some id => exact .inr ⟨_, _, rfl, rfl, rfl, rfl, .inr ⟨.inr hreject, rfl⟩⟩
  · exact .inl rfl

/-- A handler has something to do with a proposal for a frame about one only. -/
theorem Client.frameTasks_cases (c : Client E) (f : Frame E) :
    (∀ t ∈ c.frameTasks f, t.Plain) ∨ ∃ m t, f = .text (some m) t ∧ m.type = "proposal" ∧
      c.frameTasks f = c.proposalTasks m := by
  cases f with
  | binary u =>
    left
    change ∀ t ∈ c.binaryTasks u, t.Plain
    unfold binaryTasks
    split
    · intro t ht
      simp only [List.mem_cons, List.not_mem_nil, or_false] at ht
      obtain rfl | rfl := ht
      · trivial
      · exact fun _ => rfl
    · nofun
  | text m t =>
    cases m with
    | none => exact .inl nofun
    | some m =>
      by_cases hm : m.type = "proposal"
      · exact .inr ⟨m, t, rfl, hm, by simp only [frameTasks, hm]⟩
      · left
        simp only [frameTasks]
        split
        · exact absurd ‹_› hm
        · unfold roleChangeTasks
          split
          · nofun
          split
          · nofun
          · intro t ht
            simp only [List.mem_cons, List.not_mem_nil, or_false] at ht
            obtain rfl | rfl | rfl | rfl := ht
            · trivial
            · trivial
            · exact fun _ => rfl
            · trivial
        · nofun

theorem Task.Plain.decision {t : Task E} (ht : t.Plain) : t.decision = none := by
  cases t with
  | submit cmd last =>
    cases cmd with
    | proposal c => exact ht.elim
    | _ => rfl
  | _ => rfl

/-- A handler submits a decision only for a frame with the decision. -/
theorem Client.frameTasks_decision {c : Client E} {f : Frame E} {t : Task E} {action id : String}
    (h : t ∈ c.frameTasks f) (ht : t.decision = some (action, id))
    (ha : action = "accept" ∨ action = "reject") : f.decision = some (action, id) := by
  obtain hplain | ⟨m, t, rfl, hm, htasks⟩ := c.frameTasks_cases f
  · rw [(hplain _ h).decision] at ht
    cases ht
  rw [htasks] at h
  obtain hnil | ⟨cmd, p, hcons, -, -, haction, hid⟩ := c.proposalTasks_cases m
  · rw [hnil] at h
    cases h
  · simp only [hcons, List.mem_cons, List.not_mem_nil, or_false] at h
    obtain rfl | rfl := h
    · cases ht
      obtain hadd | ⟨-, hid⟩ := hid
      · rw [hadd] at ha
        exact absurd ha (by decide)
      · simp only [Frame.decision, haction]
        rw [if_pos ⟨hm, ha⟩, hid]
        rfl
    · cases ht

/-- An editor's handler submits the decision of a frame. -/
theorem Client.submit_mem_frameTasks {c : Client E} {f : Frame E} {action id : String}
    (hf : f.decision = some (action, id)) (hrole : c.role = "editor") :
    ∃ t ∈ c.frameTasks f, t.decision = some (action, id) := by
  cases f with
  | binary u => cases hf
  | text m t =>
    cases m with
    | none => cases hf
    | some m =>
      obtain ⟨hm, ha, rfl, hid⟩ := Frame.decision_of_text hf
      simp only [frameTasks, hm, proposalTasks]
      obtain ha | ha := ha
      · simp only [ha, hrole, hid]
        exact ⟨_, List.mem_cons_self .., rfl⟩
      · simp only [ha, hrole, hid]
        exact ⟨_, List.mem_cons_self .., rfl⟩

theorem Client.frameTasks_orderly {c : Client E} (f : Frame E) {conn : Conn E}
    (hc : conn.client.code = c.code) (h : conn.todo = c.frameTasks f) : conn.Orderly := by
  obtain hplain | ⟨m, t, rfl, hm, htasks⟩ := c.frameTasks_cases f
  · exact .plain (h ▸ hplain)
  rw [htasks] at h
  obtain hnil | ⟨cmd, p, hcons, hcode, hp, -, haction⟩ := c.proposalTasks_cases m
  · exact .plain (by rw [h, hnil]; nofun)
  · refine .submit (h.trans hcons) (hcode.trans hc.symm) hp ?_
    obtain ha | ⟨ha | ha, -⟩ := haction
    all_goals
      rw [ha]
      rfl

namespace Ide

variable [DecidableEq E] [Edit E] {cfg : Config E} {s s' : Ide E} {x : Action E} {j : ℕ}
  {action id : String}

/-- The frames that a page sends of itself, and those of a client about other things. -/
theorem sends_plain (hx : x.proposes = false) {f : Frame E} (hf : f ∈ s.sends cfg x j) :
    f.decision = none ∧ f.Tidy := by
  have hedit {tab : Tab E} {es : Finset E} {f : Frame E} (hf : f ∈ (tab.edit es).2) :
      f.decision = none ∧ f.Tidy := by
    rw [Tab.edit_frames tab hf]
    exact ⟨rfl, trivial⟩
  have hsyncSv (tab : Tab E) : (Tab.syncSv tab).decision = none ∧ (Tab.syncSv tab).Tidy :=
    ⟨rfl, .inr fun _ => rfl⟩
  cases x with
  | receive k =>
    simp only [sends] at hf
    split at hf
    · cases hm : (s.conn j).socket with
      | nil =>
        rw [hm] at hf
        cases hf
      | cons m rest =>
        rw [hm, List.head?_cons, Option.elim_some] at hf
        obtain ⟨tab', rfl⟩ | ⟨diff, sender, rfl⟩ := Tab.onMessage_frames _ hf
        · exact hsyncSv _
        · exact ⟨rfl, .inr fun _ => rfl⟩
    · cases hf
  | edit k es =>
    simp only [sends] at hf
    split at hf
    · exact hedit hf
    · cases hf
  | starter k es =>
    simp only [sends] at hf
    split at hf
    · unfold Tab.starter at hf
      split at hf
      · rcases List.mem_append.mp hf with hf | hf
        · exact hedit hf
        · rw [List.mem_singleton.mp hf]
          exact hsyncSv _
      · cases hf
    · cases hf
  | send k f =>
    simp only [sends] at hf
    split at hf
    · rw [List.mem_singleton.mp hf]
      exact Frame.plain_of_proposes hx
    · cases hf
  | _ => cases hf

/-- Handlers are in order: their tasks are, nothing they pass on is a proposal, and while one is
about to submit it serves. -/
structure Orderly (s : Ide E) : Prop where
  todo : ∀ j, (s.conn j).Orderly
  inbox : ∀ j, ∀ f ∈ (s.conn j).inbox, f.Tidy
  serving : ∀ j cmd last, .submit cmd last ∈ (s.conn j).todo → (s.conn j).serving = true

namespace Orderly

omit [DecidableEq E] [Edit E] in
theorem initial : (initial : Ide E).Orderly where
  todo _ := .plain nofun
  inbox _ := nofun
  serving _ _ _ := nofun

omit [DecidableEq E] [Edit E] in
theorem follow_plain {t t' : Task E} (h : t' ∈ s.follow j t) : t'.Plain := by
  cases t with
  | listParticipants =>
    rw [follow, List.mem_singleton] at h
    rw [h]
    exact fun _ => rfl
  | _ => cases h

omit [DecidableEq E] [Edit E] in
/-- A handler goes on with what is behind its task. -/
theorem tail (ho : s.Orderly) {t : Task E} {rest : List (Task E)} (ht : (s.conn j).todo = t :: rest)
    {c : Conn E} {s₁ : Ide E} (hc : c.todo = s₁.follow j t ++ rest) : c.Orderly := by
  cases ho.todo j with
  | plain hplain =>
    rw [ht] at hplain
    refine .plain fun t' ht' => ?_
    rw [hc] at ht'
    rcases List.mem_append.mp ht' with ht' | ht'
    · exact follow_plain ht'
    · exact hplain t' (List.mem_cons_of_mem _ ht')
  | submit htodo _ _ hlisted =>
    cases ht.symm.trans htodo
    exact .announce hc hlisted
  | announce htodo _ =>
    cases ht.symm.trans htodo
    refine .plain fun t' ht' => ?_
    rw [hc] at ht'
    exact absurd ht' List.not_mem_nil

theorem step (ho : s.Orderly) (h : s.step cfg x = some s')
    (hx : ∀ j, ∀ f ∈ s.sends cfg x j, f.Tidy) : s'.Orderly := by
  have hclosing {c : Conn E} (hc : c.todo = closingTasks) : c.Orderly := by
    refine .plain ?_
    rw [hc]
    simp [closingTasks, Task.Plain]
  constructor
  · intro j
    have hfresh {userID code role : String} (hc : s'.conn j = .fresh userID code role) :
        (s'.conn j).Orderly := by
      refine .plain ?_
      rw [hc]
      simp [Conn.fresh, openingTasks, Task.Plain]
    obtain hstays | ⟨-, _, _, _, -, hc⟩ := step_stays_or h j
    case inr => exact hfresh hc
    cases step_handler h j with
    | page _ htodo _ => exact (ho.todo j).congr htodo hstays.code
    | connect _ _ hc => exact hfresh hc
    | run _ ht _ _ htodo => exact ho.tail ht htodo
    | @refuse _ last _ _ _ _ _ _ htodo =>
      refine .plain ?_
      rw [htodo]
      cases last <;> simp [closingTasks, Task.Plain]
    | serve _ _ _ _ _ htodo => exact Client.frameTasks_orderly _ hstays.code htodo
    | fail _ _ _ _ _ htodo => exact hclosing htodo
  · intro j f hf
    cases step_handler h j with
    | page _ _ hin =>
      rw [hin] at hf
      rcases List.mem_append.mp hf with hf | hf
      · exact ho.inbox j f hf
      · exact hx j f hf
    | connect _ _ hc =>
      rw [hc] at hf
      cases hf
    | run _ _ _ hin _ => exact ho.inbox j f (hin ▸ hf)
    | @refuse _ last _ _ _ _ _ hin _ =>
      rw [hin] at hf
      cases last with
      | true => cases hf
      | false => exact ho.inbox j f hf
    | serve _ _ hcons _ hin _ =>
      rw [hin] at hf
      exact ho.inbox j f (hcons ▸ List.mem_cons_of_mem _ hf)
    | fail _ _ _ _ hin _ =>
      rw [hin] at hf
      cases hf
  · intro j cmd last hsub
    cases step_handler h j with
    | page hserving htodo _ => exact hserving.trans (ho.serving j cmd last (htodo ▸ hsub))
    | connect _ _ hc => rw [hc]; rfl
    | @run t rest _ ht hserving _ htodo =>
      rw [htodo] at hsub
      rcases List.mem_append.mp hsub with hsub | hsub
      · cases t <;> simp [follow] at hsub
      · exact hserving.trans (ho.serving j cmd last (ht ▸ List.mem_cons_of_mem t hsub))
    | @refuse _ last' _ _ _ _ _ _ htodo =>
      rw [htodo] at hsub
      cases last' <;> simp [closingTasks] at hsub
    | serve _ hidle _ hserving _ _ => exact hserving.trans hidle.1
    | fail _ _ _ _ _ htodo =>
      rw [htodo] at hsub
      simp [closingTasks] at hsub

end Orderly

omit [DecidableEq E] [Edit E] in
theorem submit_of_command {cmd : Cmd (Finset E)} (h : s.command (.run j) = some cmd) :
    ∃ last rest, (s.conn j).todo = .submit cmd last :: rest := by
  simp only [Ide.command] at h
  split at h
  · cases h
    exact ⟨_, _, ‹_›⟩
  · cases h

omit [DecidableEq E] [Edit E] in
/-- A handler submits commands of its own session. -/
theorem Orderly.command (ho : s.Orderly) {cmd : ProposalCmd}
    (h : s.command (.run j) = some (.proposal cmd)) :
    cmd.sessionCode = (s.conn j).client.code := by
  obtain ⟨last, rest, ht⟩ := submit_of_command h
  cases ho.todo j with
  | plain hplain => exact absurd (hplain _ (ht ▸ List.mem_cons_self ..)) id
  | submit htodo hcode _ _ =>
    cases ht.symm.trans htodo
    exact hcode
  | announce htodo _ => cases ht.symm.trans htodo

omit [DecidableEq E] [Edit E] in
/-- A handler that is about to submit has no decision but that of the submit. -/
theorem Orderly.decision_eq (ho : s.Orderly) {cmd : Cmd (Finset E)} {last : Bool} {t : Task E}
    {rest : List (Task E)} (htodo : (s.conn j).todo = .submit cmd last :: rest)
    (ht : t ∈ (s.conn j).todo) {d : String × String} (hdec : t.decision = some d) :
    (Task.submit cmd last : Task E).decision = some d := by
  cases ho.todo j with
  | plain hplain =>
    rw [(hplain t ht).decision] at hdec
    cases hdec
  | submit htodo' _ _ _ =>
    rw [htodo', List.mem_cons, List.mem_singleton] at ht
    cases htodo.symm.trans htodo'
    obtain rfl | rfl := ht
    · exact hdec
    · cases hdec
  | announce htodo' _ => cases htodo.symm.trans htodo'

/-! ## What is pending -/

variable (s x) in
/-- What the command that a step applies makes of a proposal. -/
def sets (code id : String) : Option Bool :=
  match s.command x with
  | some (.proposal c) => if code = c.sessionCode ∧ id = c.id then listed c.action else none
  | _ => none

omit [DecidableEq E] [Edit E] in
theorem sets_eq_some {code : String} {b : Bool} (h : s.sets x code id = some b) :
    ∃ c, s.command x = some (.proposal c) ∧ code = c.sessionCode ∧ id = c.id ∧
      listed c.action = some b := by
  unfold sets at h
  split at h
  · rename_i c hc
    split at h
    · rename_i hid
      exact ⟨c, hc, hid.1, hid.2, h⟩
    · cases h
  · cases h

theorem pending_step (h : s.step cfg x = some s') (code id : String) :
    s'.sessions.pending code id = (s.sets x code id).getD (s.sessions.pending code id) := by
  cases step_applies h with
  | none hsess _ hcmd =>
    rw [hsess, sets, hcmd]
    rfl
  | some cmd hsess _ hcmd =>
    rw [hsess, Sessions.pending_doOp, sets, hcmd]
    cases cmd with
    | proposal c =>
      dsimp only
      split <;> rfl
    | _ => rfl

/-! ## Decisions on their way -/

/-- The decisions that a step drops: their frame is not an editor's, their submit returns false, or
the loop ends with their frames unread. -/
def dropped (s : Ide E) : Action E → List (String × String)
  | .serve k =>
    if (s.conn k).client.role = "editor" then []
    else ((s.conn k).inbox.head?.bind Frame.decision).toList
  | .refuse k => match (s.conn k).todo with
    | t@(.submit _ last) :: _ =>
      t.decision.toList ++ if last then (s.conn k).inbox.filterMap Frame.decision else []
    | _ => []
  | .fail k => (s.conn k).inbox.filterMap Frame.decision
  | _ => []

/-- Only a click starts a decision. -/
theorem decides_of_step (h : s.step cfg x = some s') (ho : s.Orderly) (hx : x.proposes = false)
    (ha : action = "accept" ∨ action = "reject") (hd : (s'.conn j).Decides action id) :
    (s.conn j).Decides action id := by
  cases step_handler h j with
  | page hserving htodo hin =>
    obtain ⟨hs, f, hf, hdec⟩ | ⟨t, ht, hdec⟩ := hd
    · rw [hin] at hf
      rcases List.mem_append.mp hf with hf | hf
      · exact .inl ⟨hserving ▸ hs, f, hf, hdec⟩
      · rw [(sends_plain hx hf).1] at hdec
        cases hdec
    · exact .inr ⟨t, htodo ▸ ht, hdec⟩
  | connect _ _ hc =>
    rw [hc] at hd
    obtain ⟨-, f, hf, -⟩ | ⟨t, ht, hdec⟩ := hd
    · cases hf
    · simp only [Conn.fresh, openingTasks, List.mem_cons, List.not_mem_nil, or_false] at ht
      obtain rfl | rfl | rfl | rfl | rfl := ht <;> cases hdec
  | @run t rest _ htodo hserving hin htodo' =>
    obtain ⟨hs, f, hf, hdec⟩ | ⟨t', ht', hdec⟩ := hd
    · exact .inl ⟨hserving ▸ hs, f, hin ▸ hf, hdec⟩
    · rw [htodo'] at ht'
      rcases List.mem_append.mp ht' with ht' | ht'
      · cases t with
        | listParticipants =>
          rw [List.mem_singleton.mp ht'] at hdec
          cases hdec
        | _ => cases ht'
      · exact .inr ⟨t', htodo ▸ List.mem_cons_of_mem t ht', hdec⟩
  | @refuse cmd last _ _ htodo _ _ hin htodo' =>
    obtain ⟨-, f, hf, hdec⟩ | ⟨t, ht, hdec⟩ := hd
    · have hs := ho.serving j cmd last (htodo ▸ List.mem_cons_self ..)
      rw [hin] at hf
      cases last with
      | true => cases hf
      | false => exact .inl ⟨hs, f, hf, hdec⟩
    · rw [htodo'] at ht
      rcases List.mem_cons.mp ht with rfl | ht
      · cases hdec
      · cases last with
        | true => simp [closingTasks] at ht; obtain rfl | rfl := ht <;> cases hdec
        | false => cases ht
  | serve _ hidle hf hserving hin htodo' =>
    obtain ⟨hs, f', hf', hdec⟩ | ⟨t, ht, hdec⟩ := hd
    · rw [hin] at hf'
      exact .inl ⟨hserving ▸ hs, f', hf ▸ List.mem_cons_of_mem _ hf', hdec⟩
    · rw [htodo'] at ht
      exact .inl ⟨hidle.1, _, hf ▸ List.mem_cons_self .., Client.frameTasks_decision ht hdec ha⟩
  | fail _ _ _ hserving _ htodo' =>
    obtain ⟨hs, -⟩ | ⟨t, ht, hdec⟩ := hd
    · rw [hserving] at hs
      cases hs
    · rw [htodo'] at ht
      simp [closingTasks] at ht
      obtain rfl | rfl := ht <;> cases hdec

/-- A decision on its way stays on its way, is applied, or is dropped. -/
theorem step_decides (h : s.step cfg x = some s') (hwf : s.WF) (ho : s.Orderly)
    (hd : (s.conn j).Decides action id) : (s'.conn j).Decides action id ∨
      (∃ cmd, x = .run j ∧ s.command x = some (.proposal cmd) ∧ cmd.action = action ∧
        cmd.id = id) ∨
      (x = .serve j ∨ x = .refuse j ∨ x = .fail j) ∧ (action, id) ∈ s.dropped x := by
  cases step_handler h j with
  | page hserving htodo hin =>
    left
    obtain ⟨hs, f, hf, hdec⟩ | ⟨t, ht, hdec⟩ := hd
    · exact .inl ⟨hserving.trans hs, f, hin ▸ List.mem_append_left _ hf, hdec⟩
    · exact .inr ⟨t, htodo ▸ ht, hdec⟩
  | connect _ hj _ =>
    rw [hwf.unused j hj.ge] at hd
    obtain ⟨hs, -⟩ | ⟨t, ht, -⟩ := hd
    · cases hs
    · cases ht
  | @run t rest hx htodo hserving hin htodo' =>
    obtain ⟨hs, f, hf, hdec⟩ | ⟨t', ht', hdec⟩ := hd
    · exact .inl (.inl ⟨hserving.trans hs, f, hin ▸ hf, hdec⟩)
    · rw [htodo] at ht'
      rcases List.mem_cons.mp ht' with rfl | ht'
      · cases t' with
        | submit cmd last =>
          cases cmd with
          | proposal c =>
            cases hdec
            exact .inr (.inl ⟨c, hx, by rw [hx]; simp only [Ide.command, htodo], rfl, rfl⟩)
          | _ => cases hdec
        | _ => cases hdec
      · exact .inl (.inr ⟨t', htodo' ▸ List.mem_append_right _ ht', hdec⟩)
  | @refuse cmd last rest hx htodo _ hserving hin htodo' =>
    subst hx
    simp only [dropped, htodo]
    obtain ⟨hs, f, hf, hdec⟩ | ⟨t, ht, hdec⟩ := hd
    · cases last with
      | true =>
        refine .inr (.inr ⟨.inr (.inl trivial), List.mem_append_right _ ?_⟩)
        rw [if_pos rfl]
        exact List.mem_filterMap.mpr ⟨f, hf, hdec⟩
      | false => exact .inl (.inl ⟨hserving, f, hin ▸ hf, hdec⟩)
    · refine .inr (.inr ⟨.inr (.inl trivial), List.mem_append_left _ ?_⟩)
      rw [Option.mem_toList]
      exact ho.decision_eq htodo ht hdec
  | @serve f rest hx hidle hf hserving hin htodo' =>
    subst hx
    obtain ⟨hs, f', hf', hdec⟩ | ⟨t, ht, -⟩ := hd
    · rw [hf] at hf'
      rcases List.mem_cons.mp hf' with rfl | hf'
      · by_cases hrole : (s.conn j).client.role = "editor"
        · obtain ⟨t, ht, hdec'⟩ := Client.submit_mem_frameTasks hdec hrole
          exact .inl (.inr ⟨t, htodo' ▸ ht, hdec'⟩)
        · refine .inr (.inr ⟨.inl rfl, ?_⟩)
          rw [dropped, if_neg hrole, hf, List.head?_cons, Option.bind_some, hdec]
          exact List.mem_singleton_self _
      · exact .inl (.inl ⟨hserving.trans hs, f', hin ▸ hf', hdec⟩)
    · rw [hidle.2] at ht
      cases ht
  | fail hx hidle _ _ _ _ =>
    subst hx
    obtain ⟨-, f, hf, hdec⟩ | ⟨t, ht, -⟩ := hd
    · exact .inr (.inr ⟨.inr (.inr rfl), List.mem_filterMap.mpr ⟨f, hf, hdec⟩⟩)
    · rw [hidle.2] at ht
      cases ht

/-! ## Clicks -/

omit [DecidableEq E] [Edit E] in
/-- What a page sends starts a decision if its frame has one and its handler serves. -/
theorem setTab_decides {k : ℕ} {r : Tab E × List (Frame E)} :
    ((s.setTab k r).conn j).Decides action id ↔ (s.conn j).Decides action id ∨
      j = k ∧ (s.conn k).serving = true ∧ ∃ f ∈ r.2, f.decision = some (action, id) := by
  rw [setTab_conn]
  split
  · rename_i hj
    subst hj
    simp only [Conn.Decides, List.mem_append, true_and]
    constructor
    · rintro (⟨hs, f, hf | hf, hdec⟩ | htask)
      · exact .inl (.inl ⟨hs, f, hf, hdec⟩)
      · exact .inr ⟨hs, f, hf, hdec⟩
      · exact .inl (.inr htask)
    · rintro ((⟨hs, f, hf, hdec⟩ | htask) | ⟨hs, f, hf, hdec⟩)
      · exact .inl ⟨hs, f, .inl hf, hdec⟩
      · exact .inr htask
      · exact .inl ⟨hs, f, .inr hf, hdec⟩
  · rename_i hj
    exact ⟨.inl, fun h => h.resolve_right fun h => hj h.1⟩

omit [DecidableEq E] [Edit E] in
theorem Orderly.setTab (ho : s.Orderly) {k : ℕ} {r : Tab E × List (Frame E)}
    (hr : ∀ f ∈ r.2, f.Tidy) : (s.setTab k r).Orderly := by
  have hsame (j : ℕ) := setConn_same (s := s) (k := k) (c := { s.conn k with
    tab := r.1, inbox := (s.conn k).inbox ++ r.2 }) (fun c => (c.todo, c.client.code, c.serving))
    rfl j
  simp only [Prod.mk.injEq] at hsame
  constructor
  · intro j
    exact (ho.todo j).congr (hsame j).1 (hsame j).2.1
  · intro j f hf
    rw [setTab_conn] at hf
    split at hf
    · rcases List.mem_append.mp hf with hf | hf
      · exact ho.inbox k f hf
      · exact hr f hf
    · exact ho.inbox j f hf
  · intro j cmd last hsub
    exact (hsame j).2.2.trans (ho.serving j cmd last ((hsame j).1 ▸ hsub))

end Ide

theorem decisionFrame_decision {act : String} {p : Proposal}
    (h : act = "accept" ∨ act = "reject") :
    (decisionFrame act p : Frame E).decision = some (act, p.id) :=
  if_pos ⟨rfl, h⟩

namespace Tab

variable (tab : Tab E)

theorem mem_sendJSON {f g : Frame E} (h : g ∈ tab.sendJSON f) : g = f := by
  unfold sendJSON at h
  split at h
  · exact List.mem_singleton.mp h
  · cases h

theorem sendJSON_self {f : Frame E} (h : tab.connected = true) : f ∈ tab.sendJSON f := by
  rw [sendJSON, if_pos h]
  exact List.mem_singleton_self _

theorem reject_frames {id : String} {f : Frame E} (h : f ∈ (tab.reject id).2) :
    f.decision = some ("reject", id) ∧ f.Tidy := by
  rw [tab.mem_sendJSON h]
  exact ⟨decisionFrame_decision (.inr rfl), .inl rfl⟩

theorem accept_frames [DecidableEq E] {p : Proposal} {es : Finset E} {f : Frame E}
    (h : f ∈ (tab.accept p es).2) :
    (f.decision = none ∨ f.decision = some ("accept", p.id)) ∧ f.Tidy := by
  rcases List.mem_append.mp h with h | h
  · rw [edit_frames tab h]
    exact ⟨.inl rfl, trivial⟩
  · rw [tab.mem_sendJSON h]
    exact ⟨.inr (decisionFrame_decision (.inl rfl)), .inl rfl⟩

end Tab

namespace Review

variable [DecidableEq E] [Edit E] {cfg : Config E} {view : Finset E → YDoc} {s s' : Review E}
  {x : Action E}

/-- The editor under the clicks is well formed and its handlers are in order. -/
structure Sound (s : Review E) : Prop where
  wf : s.ide.WF
  orderly : s.ide.Orderly

omit [DecidableEq E] [Edit E] in
/-- A page that shows a proposal has a connection. -/
theorem Shows.lt {k : ℕ} {p : Proposal} (h : s.Shows k p) (hwf : s.ide.WF) : k < s.ide.next :=
  hwf.lt_of_ne fun hu => by
    have hrole := h.1
    rw [hu] at hrole
    simp [Conn.unused, Tab.load] at hrole

theorem Sound.step (h : s.Sound) (hst : s.step cfg view x = some s') : s'.Sound := by
  cases stepped hst with
  | ide hx hide => exact ⟨h.wf.step hide, h.orderly.step hide fun _ _ hf => (Ide.sends_plain hx hf).2⟩
  | add hc =>
    refine ⟨h.wf.setConn (h.wf.lt_of_connected hc) rfl, h.orderly.setTab fun f hf => ?_⟩
    rw [List.mem_singleton.mp hf]
    exact .inl rfl
  | accept hshow _ =>
    exact ⟨h.wf.setConn (hshow.lt h.wf) rfl,
      h.orderly.setTab fun f hf => (Tab.accept_frames _ hf).2⟩
  | discard hshow _ =>
    exact ⟨h.wf.setConn (hshow.lt h.wf) rfl,
      h.orderly.setTab fun f hf => (Tab.reject_frames _ hf).2⟩
  | reject hshow =>
    exact ⟨h.wf.setConn (hshow.lt h.wf) rfl,
      h.orderly.setTab fun f hf => (Tab.reject_frames _ hf).2⟩

theorem Sound.of_reach {ok : Review E → Action E → Prop}
    (hs : (machine cfg view).Reach ok s) : s.Sound := by
  refine hs.invariant (fun s h => ?_) fun _ _ _ _ h _ hst => h.step hst
  cases h
  exact ⟨⟨fun _ _ => rfl, nofun⟩, .initial⟩

end Review

end CollabIde
