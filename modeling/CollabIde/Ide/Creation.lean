import CollabIde.Lib.Run
import CollabIde.Ide.Roles

/-!
# Creating a session

The sessions under the commands that handlers submit: `handleCreate` draws a code and submits a
command that creates a session with it, the other handlers act on sessions that exist. In a cluster
the commands that have been submitted are applied later, in any order, or never. Nothing compares
the drawn code with the codes that are taken, and `create` on a taken code makes its user creator
and editor of the session that is there. If each create command is applied while its code is free,
none of them touches a session, each session has its creator from one command, and all editors are
creators or were made so by a role change. That is so if each code is free when it is drawn, and
no create command that is still to be applied has it (`meets_of_drawn`).
-/

namespace CollabIde

variable {U : Type}

/-- The letters of a code. -/
def codeLetters : List Char := "ABCDEFGHJKLMNPQRSTUVWXYZ".toList

/-- The digits of a code. -/
def codeDigits : List Char := "0123456789".toList

/-- A code such as "ABC-4829", from seven random numbers. -/
def generateCode (letters : Fin 3 → Fin 24) (digits : Fin 4 → Fin 10) : String :=
  String.ofList ((List.finRange 3).map (fun i => codeLetters.getD (letters i) ' ')) ++ "-" ++
    String.ofList ((List.finRange 4).map (fun i => codeDigits.getD (digits i) ' '))

/-- The user that a command makes the creator of a session. -/
def Cmd.setsCreator (code : String) : Cmd U → Option String
  | .session c => if c.action = "create" ∧ c.code = code then some c.userID else none
  | _ => none

theorem setsCreator_create (code code' userID role : String) :
    (Cmd.session ⟨"create", code, userID, role⟩ : Cmd U).setsCreator code' =
      if code = code' then some userID else none := by
  unfold Cmd.setsCreator
  simp only [true_and]

/-- The code that a command creates a session with. -/
def Cmd.createsCode : Cmd U → Option String
  | .session c => if c.action = "create" then some c.code else none
  | _ => none

/-- The sessions, the commands that are still to be applied, and those that have been. -/
structure Collab (U : Type) where
  sessions : Sessions U
  submitted : List (Cmd U)
  history : List (Cmd U)

namespace Collab

/-- What a handler submits. -/
inductive Request (U : Type) where
  /-- `handleCreate`, with the numbers that `generateCode` draws. -/
  | create (userID : String) (letters : Fin 3 → Fin 24) (digits : Fin 4 → Fin 10)
  | join (code userID : String)
  | update (c : CRDTUpdateCmd U)
  | proposal (c : ProposalCmd)
  | roleChange (c : RoleChangeCmd)

/-- The command that is submitted. -/
def Request.command : Request U → Cmd U
  | .create userID letters digits =>
    .session ⟨"create", generateCode letters digits, userID, "editor"⟩
  | .join code userID => .session ⟨"join", code, userID, "viewer"⟩
  | .update c => .crdtUpdate c
  | .proposal c => .proposal c
  | .roleChange c => .roleChange c

inductive Action (U : Type) where
  | submit (r : Request U)
  /-- The command at place `i` of those that are to be applied is applied. -/
  | apply (i : ℕ)

variable (s : Collab U)

/-- What the handler has checked: a user ID, or that the session exists. (The sessions of a node
that is behind are among these.) -/
def Checked : Request U → Prop
  | .create userID _ _ => userID ≠ ""
  | r => s.sessions.sessionExists r.command.sessionCode

instance : ∀ r, Decidable (s.Checked r)
  | .create userID _ _ => inferInstanceAs (Decidable (userID ≠ ""))
  | .join _ _ => inferInstanceAs (Decidable (_ = true))
  | .update _ => inferInstanceAs (Decidable (_ = true))
  | .proposal _ => inferInstanceAs (Decidable (_ = true))
  | .roleChange _ => inferInstanceAs (Decidable (_ = true))

def doOp (cmd : Cmd U) : Collab U :=
  { s with sessions := s.sessions.doOp cmd, history := s.history ++ [cmd] }

def step : Action U → Option (Collab U)
  | .submit r =>
    if s.Checked r then some { s with submitted := s.submitted ++ [r.command] } else none
  | .apply i => s.submitted[i]?.map fun cmd =>
    { s.doOp cmd with submitted := s.submitted.eraseIdx i }

def machine : Machine (Collab U) (Action U) where
  init s := s = ⟨fun _ => none, [], []⟩
  step := step

/-- The code that a step creates a session with. -/
def created : Action U → Option String
  | .apply i => s.submitted[i]?.bind Cmd.createsCode
  | _ => none

/-- A create command is applied while its code is free. -/
def Meets (x : Action U) : Prop := ∀ code ∈ s.created x, s.sessions code = none

instance (x : Action U) : Decidable (s.Meets x) :=
  inferInstanceAs (Decidable (∀ code ∈ s.created x, _))

/-- The codes of the create commands that are still to be applied. -/
def drawn : List String := s.submitted.filterMap Cmd.createsCode

/-- The code that `handleCreate` draws is free, and no create command that is still to be applied
has it. -/
def Drawn : Action U → Prop
  | .submit r => ∀ code ∈ r.command.createsCode, s.sessions code = none ∧ code ∉ s.drawn
  | .apply _ => True

/-- The users that `Creator` of the session has been set to. -/
def creators (code : String) : List String := s.history.filterMap (Cmd.setsCreator code)

/-- Each session has had its creator set once, and its editors are its creator and those that a
role change has made editors. -/
structure Right : Prop where
  creator : ∀ code, s.creators code = ((s.sessions code).map SessionState.creator).toList
  editor : ∀ code userID, s.sessions.getRole code userID = "editor" →
    s.creators code = [userID] ∨ .roleChange ⟨code, userID, "editor"⟩ ∈ s.history

/-- The sessions that there were are as they were. -/
def Keeps (s' : Collab U) : Prop :=
  ∀ code st, s.sessions code = some st → s'.sessions code = some st

end Collab

/-! ## The creator of a session -/

namespace Sessions

variable (ss : Sessions U) {code : String} {st : SessionState U}

/-- A session that exists is set to a state with the same creator. -/
theorem creator_set_same (hex : ss.sessionExists code)
    (h : st.creator = (ss.getOrCreate code).creator) (code' : String) :
    ((ss.set code st) code').map SessionState.creator =
      (ss code').map SessionState.creator := by
  unfold set
  by_cases hc : code' = code
  · obtain ⟨st', hst'⟩ := Option.isSome_iff_exists.mp hex
    rw [hc, Function.update_self, hst', Option.map_some, Option.map_some, h, getOrCreate, hst',
      Option.getD_some]
  · rw [Function.update_of_ne hc]

/-- Only `create` sets a creator. -/
theorem creator_doOp {cmd : Cmd U} (hex : ss.sessionExists cmd.sessionCode)
    (hset : ∀ code, cmd.setsCreator code = none) (code : String) :
    ((ss.doOp cmd) code).map SessionState.creator = (ss code).map SessionState.creator := by
  cases cmd with
  | crdtUpdate c => exact ss.creator_set_same hex (by rfl) code
  | proposal c =>
    refine ss.creator_set_same hex ?_ code
    split <;> rfl
  | roleChange c => exact ss.creator_set_same hex (by rfl) code
  | session c =>
    have hcreate : c.action ≠ "create" := by
      intro hc
      have hno := hset c.code
      rw [Cmd.setsCreator, if_pos ⟨hc, rfl⟩] at hno
      cases hno
    have hcases : ss.doSession c = ss ∨ ∃ st : SessionState U,
        st.creator = (ss.getOrCreate c.code).creator ∧ ss.doSession c = ss.set c.code st := by
      unfold doSession
      split
      · exact absurd ‹_› hcreate
      · refine .inr ⟨_, ?_, rfl⟩
        split <;> rfl
      · exact .inl rfl
    change ((ss.doSession c) code).map SessionState.creator = _
    obtain hc | ⟨st, hst, hc⟩ := hcases
    · rw [hc]
    · rw [hc]
      exact ss.creator_set_same hex hst code

/-- A command sets its session, if anything. -/
theorem doOp_eq (cmd : Cmd U) :
    ss.doOp cmd = ss ∨ ∃ st, ss.doOp cmd = ss.set cmd.sessionCode st := by
  cases cmd with
  | session c =>
    change ss.doSession c = ss ∨ ∃ st, ss.doSession c = ss.set c.code st
    unfold doSession
    split
    · exact .inr ⟨_, rfl⟩
    · exact .inr ⟨_, rfl⟩
    · exact .inl rfl
  | _ => exact .inr ⟨_, rfl⟩

/-- A session that exists stays. -/
theorem sessionExists_doOp (cmd : Cmd U) (h : ss.sessionExists code) :
    (ss.doOp cmd).sessionExists code := by
  obtain hc | ⟨st, hc⟩ := ss.doOp_eq cmd
  · rwa [hc]
  · rw [hc, sessionExists, set, Function.update_apply]
    split
    · rfl
    · exact h

/-- A code that is free stays so under the commands for other sessions. -/
theorem free_doOp {cmd : Cmd U} (hfree : ss code = none) (hne : code ≠ cmd.sessionCode) :
    ss.doOp cmd code = none := by
  obtain hc | ⟨st, hc⟩ := ss.doOp_eq cmd
  · rwa [hc]
  · rw [hc, set, Function.update_of_ne hne, hfree]

end Sessions

/-! ## Runs -/

namespace Collab

variable {s s' : Collab U}

theorem creators_doOp (cmd : Cmd U) (code : String) :
    (s.doOp cmd).creators code = s.creators code ++ (cmd.setsCreator code).toList := by
  unfold creators doOp
  rw [List.filterMap_append]
  cases h : cmd.setsCreator code <;> simp [h]

/-- A command that creates nothing. -/
theorem Right.doOp (h : s.Right) {cmd : Cmd U} (hex : s.sessions.sessionExists cmd.sessionCode)
    (hset : ∀ code, cmd.setsCreator code = none) : (s.doOp cmd).Right where
  creator code := by
    rw [creators_doOp, hset, Option.toList_none, List.append_nil, h.creator]
    exact congrArg Option.toList (s.sessions.creator_doOp hex hset code).symm
  editor code userID he := by
    have hold (hr : s.sessions.getRole code userID = "editor") :
        (s.doOp cmd).creators code = [userID] ∨
          .roleChange ⟨code, userID, "editor"⟩ ∈ (s.doOp cmd).history := by
      rw [creators_doOp, hset, Option.toList_none, List.append_nil]
      exact (h.editor code userID hr).imp_right (List.mem_append_left _)
    change (s.sessions.doOp cmd).getRole code userID = "editor" at he
    rw [Sessions.getRole_doOp] at he
    cases cmd with
    | crdtUpdate c => exact hold he
    | proposal c => exact hold he
    | roleChange c =>
      simp only [Cmd.givenRole] at he
      split at he
      · rename_i hc
        obtain ⟨rfl, rfl⟩ := hc
        refine .inr (List.mem_append_right _ (List.mem_singleton.mpr ?_))
        rw [← he]
      · exact hold he
    | session c =>
      have hno := hset c.code
      simp only [Cmd.setsCreator, and_true, ite_eq_right_iff, reduceCtorEq, imp_false] at hno
      simp only [Cmd.givenRole, if_neg hno] at he
      exact hold he

/-- A create command on a free code. -/
theorem Right.create (h : s.Right) {code userID role : String} (hfree : s.sessions code = none) :
    (s.doOp (.session ⟨"create", code, userID, role⟩)).Right where
  creator code' := by
    rw [creators_doOp, h.creator]
    change _ = (((s.sessions.set code _) code').map SessionState.creator).toList
    rw [Sessions.set, setsCreator_create]
    by_cases hc : code' = code
    · rw [hc, hfree, Function.update_self, if_pos rfl]
      rfl
    · rw [Function.update_of_ne hc, if_neg (Ne.symm hc), Option.toList_none, List.append_nil]
  editor code' userID' he := by
    have hnone : s.creators code = [] := by rw [h.creator, hfree]; rfl
    change (s.sessions.doOp (.session ⟨"create", code, userID, role⟩)).getRole code' userID' =
      "editor" at he
    rw [Sessions.getRole_doOp] at he
    simp only [Cmd.givenRole, if_true] at he
    rw [creators_doOp, setsCreator_create]
    split at he
    · rename_i hc
      obtain ⟨rfl, rfl⟩ := hc
      rw [hnone, if_pos rfl]
      exact .inl rfl
    · obtain hcr | hmem := h.editor code' userID' he
      · by_cases hc : code' = code
        · rw [hc, hnone] at hcr
          cases hcr
        · rw [if_neg (Ne.symm hc), Option.toList_none, List.append_nil]
          exact .inl hcr
      · exact .inr (List.mem_append_left _ hmem)

/-- A create command on a free code leaves the other sessions. -/
theorem keeps_create {code userID role : String} (hfree : s.sessions code = none) :
    s.Keeps (s.doOp (.session ⟨"create", code, userID, role⟩)) := by
  intro code' st hst
  have hne : code' ≠ code := by
    rintro rfl
    cases hfree.symm.trans hst
  exact (Function.update_of_ne hne ..).trans hst

/-- After a create command on a taken code the creator has been set twice. -/
theorem Right.free (h : s.Right) {code userID role : String}
    (h' : (s.doOp (.session ⟨"create", code, userID, role⟩)).Right) : s.sessions code = none := by
  cases hst : s.sessions code with
  | none => rfl
  | some st =>
    have hc := h'.creator code
    rw [creators_doOp, h.creator, hst] at hc
    have hlen := congrArg List.length hc
    rw [List.length_append] at hlen
    have hone : ∀ o : Option String, o.toList.length ≤ 1 := by
      intro o
      cases o <;> simp
    have := hone (((s.doOp (.session ⟨"create", code, userID, role⟩)).sessions code).map
      SessionState.creator)
    rw [setsCreator_create, if_pos rfl] at hlen
    simp only [Option.map_some, Option.toList_some, List.length_singleton] at hlen
    omega

/-- What a step can do. -/
theorem step_cases {x : Action U} (h : s.step x = some s') :
    (∃ r, x = .submit r ∧ s.Checked r ∧
      s' = { s with submitted := s.submitted ++ [r.command] }) ∨
    ∃ i cmd, x = .apply i ∧ s.submitted[i]? = some cmd ∧
      s' = { s.doOp cmd with submitted := s.submitted.eraseIdx i } := by
  cases x with
  | submit r =>
    simp only [step] at h
    split at h
    · cases h
      exact .inl ⟨r, rfl, ‹_›, rfl⟩
    · cases h
  | apply i =>
    obtain ⟨cmd, hget, rfl⟩ := Option.map_eq_some_iff.mp h
    exact .inr ⟨i, cmd, rfl, hget, rfl⟩

/-- Each command that is still to be applied has been checked. -/
def Known (s : Collab U) : Prop := ∀ cmd ∈ s.submitted, ∃ r, s.Checked r ∧ r.command = cmd

theorem Checked.doOp {r : Request U} (h : s.Checked r) (cmd : Cmd U) : (s.doOp cmd).Checked r := by
  cases r with
  | create _ _ _ => exact h
  | _ => exact s.sessions.sessionExists_doOp cmd h

theorem Known.step (h : s.Known) {x : Action U} (hx : s.step x = some s') : s'.Known := by
  obtain ⟨r, rfl, hr, rfl⟩ | ⟨i, cmd, rfl, -, rfl⟩ := step_cases hx
  · intro cmd hcmd
    obtain hcmd | hcmd := List.mem_append.mp hcmd
    · exact h cmd hcmd
    · exact ⟨r, hr, (List.mem_singleton.mp hcmd).symm⟩
  · intro cmd' hcmd'
    obtain ⟨r, hr, rfl⟩ := h cmd' (List.mem_of_mem_eraseIdx hcmd')
    exact ⟨r, hr.doOp cmd, rfl⟩

/-- One step. -/
theorem Right.step (h : s.Right) (hk : s.Known) {x : Action U} (hx : s.step x = some s') :
    s'.Right ∧ (s.created x ≠ none → s.Keeps s') ↔ s.Meets x := by
  have hnothing (hc : s.created x = none) (h' : s'.Right) :
      s'.Right ∧ (s.created x ≠ none → s.Keeps s') ↔ s.Meets x := by
    rw [Meets, hc]
    exact ⟨fun _ _ hcode => (by cases hcode), fun _ => ⟨h', fun hne => absurd rfl hne⟩⟩
  obtain ⟨r, rfl, -, rfl⟩ | ⟨i, cmd, rfl, hget, rfl⟩ := step_cases hx
  · exact hnothing rfl ⟨h.creator, h.editor⟩
  · obtain ⟨r, hr, rfl⟩ := hk cmd (List.mem_of_getElem? hget)
    cases r with
    | create userID letters digits =>
      have hc : s.created (.apply i) = some (generateCode letters digits) := by
        rw [created, hget]
        rfl
      rw [Meets, hc]
      constructor
      · rintro ⟨h', -⟩ code hcode
        cases hcode
        have h' : (s.doOp (Request.create userID letters digits).command).Right :=
          ⟨h'.creator, h'.editor⟩
        exact h.free h'
      · intro hm
        have h' : (s.doOp (Request.create userID letters digits).command).Right :=
          h.create (hm _ rfl)
        have hkeeps : s.Keeps (s.doOp (Request.create userID letters digits).command) :=
          keeps_create (hm _ rfl)
        exact ⟨⟨h'.creator, h'.editor⟩, fun _ => hkeeps⟩
    | join code userID =>
      have hset (code' : String) :
          (Request.command (.join code userID) : Cmd U).setsCreator code' = none := by
        unfold Request.command Cmd.setsCreator
        exact if_neg (by simp)
      have h' := h.doOp hr hset
      refine hnothing ?_ ⟨h'.creator, h'.editor⟩
      rw [created, hget]
      rfl
    | _ =>
      have h' := h.doOp hr fun _ => rfl
      refine hnothing ?_ ⟨h'.creator, h'.editor⟩
      rw [created, hget]
      rfl

theorem right_known (hs : (machine (U := U)).Reach Meets s) : s.Right ∧ s.Known := by
  refine hs.invariant (I := fun s => s.Right ∧ s.Known) (fun s h0 => ?_)
    fun s x s' _ h ho hx => ⟨((h.1.step h.2 hx).mpr ho).1, h.2.step hx⟩
  obtain rfl : s = ⟨fun _ => none, [], []⟩ := h0
  refine ⟨⟨fun _ => rfl, fun code userID he => ?_⟩, fun _ hcmd => absurd hcmd List.not_mem_nil⟩
  exact absurd (show "viewer" = "editor" from he) (by decide)

/-- **Creating a session touches no other one**, sets its creator once and makes nobody else an
editor, as long as each create command is applied while its code is free; one that is applied with
a taken code breaks this. -/
theorem create_is_fresh (hs : (machine (U := U)).Reach Meets s) :
    s.Right ∧ ∀ x s', s.step x = some s' →
      (s'.Right ∧ (s.created x ≠ none → s.Keeps s') ↔ s.Meets x) :=
  ⟨(right_known hs).1, fun _ _ hx => (right_known hs).1.step (right_known hs).2 hx⟩

/-- Two sessions and a role change, the second create command applied before the first. -/
theorem create_is_fresh_twice : ∃ s : Collab ℕ, s.history.length = 3 ∧ s.Right := by
  obtain ⟨s, hs, hlength⟩ := (machine (U := ℕ)).reach_of_run Meets (f := fun s => s.history.length)
    (v := 3) [.submit (.create "ann" (fun _ => 0) fun _ => 0),
      .submit (.create "bob" (fun _ => 1) fun _ => 0), .apply 1, .apply 0,
      .submit (.roleChange ⟨"AAA-0000", "bob", "proposer"⟩), .apply 0] rfl rfl
  exact ⟨s, hlength, (create_is_fresh hs).1⟩

/-- The same code is drawn twice: the second user takes the first one's session. -/
theorem create_takes_session : ¬ ∀ s : Collab ℕ, machine.Reachable s →
    s.Right ∧ ∀ x s', s.step x = some s' → s.created x ≠ none → s.Keeps s' := by
  intro hall
  have h : (machine (U := ℕ)).Reachable ⟨fun _ => none, [], []⟩ := .init rfl
  have h := h.step (x := .submit (.create "ann" (fun _ => 0) fun _ => 0)) trivial rfl
  have h := h.step (x := .apply 0) trivial rfl
  have h := h.step (x := .submit (.create "bob" (fun _ => 0) fun _ => 0)) trivial rfl
  have hkeeps := (hall _ h).2 (.apply 0) _ rfl (by decide) "AAA-0000" _ rfl
  have hcreator := congrArg (Option.map SessionState.creator) hkeeps
  revert hcreator
  decide

/-! ## The codes that are drawn -/

/-- The create commands that are still to be applied have different codes, and free ones. -/
def Apart (s : Collab U) : Prop := s.drawn.Nodup ∧ ∀ code ∈ s.drawn, s.sessions code = none

theorem Apart.step (h : s.Apart) (hk : s.Known) {x : Action U} (hx : s.step x = some s')
    (hd : s.Drawn x) : s'.Apart := by
  obtain ⟨r, rfl, -, rfl⟩ | ⟨i, cmd, rfl, hget, rfl⟩ := step_cases hx
  · rw [Apart, drawn, List.filterMap_append, ← drawn]
    cases hc : r.command.createsCode with
    | none =>
      simp only [List.filterMap_cons, hc, List.filterMap_nil, List.append_nil]
      exact h
    | some code =>
      simp only [List.filterMap_cons, hc, List.filterMap_nil]
      obtain ⟨hfree, hcode⟩ := hd code hc
      refine ⟨h.1.append (List.nodup_singleton code) ?_, fun code' hcode' => ?_⟩
      · rintro code' hcode' hmem
        exact hcode (List.mem_singleton.mp hmem ▸ hcode')
      · obtain hcode' | hcode' := List.mem_append.mp hcode'
        · exact h.2 code' hcode'
        · exact List.mem_singleton.mp hcode' ▸ hfree
  · obtain ⟨hi, hcmd⟩ := List.getElem?_eq_some_iff.mp hget
    have hperm : (cmd :: s.submitted.eraseIdx i).Perm s.submitted :=
      hcmd ▸ List.getElem_cons_eraseIdx_perm hi
    have hdrawn : ((cmd :: s.submitted.eraseIdx i).filterMap Cmd.createsCode).Perm s.drawn :=
      hperm.filterMap _
    have hsub {code : String} (hc : code ∈ (s.submitted.eraseIdx i).filterMap Cmd.createsCode) :
        code ∈ s.drawn := ((List.eraseIdx_sublist ..).filterMap _).subset hc
    refine ⟨h.1.sublist ((List.eraseIdx_sublist ..).filterMap _), fun code hc => ?_⟩
    refine s.sessions.free_doOp (h.2 code (hsub hc)) fun hcode => ?_
    obtain ⟨r, hr, rfl⟩ := hk cmd (List.mem_of_getElem? hget)
    have hexists (hex : s.sessions.sessionExists r.command.sessionCode) : False := by
      rw [Sessions.sessionExists, ← hcode, h.2 code (hsub hc)] at hex
      cases hex
    cases r with
    | create userID letters digits =>
      have hnodup := hdrawn.nodup_iff.mpr h.1
      change code = generateCode letters digits at hcode
      exact (List.nodup_cons.mp hnodup).1 (hcode ▸ hc)
    | _ => exact hexists hr

/-- It is enough that the codes that are drawn are free, and apart. -/
theorem meets_of_drawn (hs : (machine (U := U)).Reach Drawn s) :
    (machine (U := U)).Reach Meets s := by
  have hinv {s : Collab U} (hs : (machine (U := U)).Reach Drawn s) : s.Apart ∧ s.Known := by
    refine hs.invariant (I := fun s => s.Apart ∧ s.Known) (fun s h0 => ?_)
      fun s x s' _ h hd hx => ⟨h.1.step h.2 hx hd, h.2.step hx⟩
    obtain rfl : s = ⟨fun _ => none, [], []⟩ := h0
    exact ⟨⟨List.nodup_nil, fun _ _ => rfl⟩, fun _ hcmd => absurd hcmd List.not_mem_nil⟩
  refine hs.imp fun s x hs _ code hcode => ?_
  cases x with
  | submit r => cases hcode
  | apply i =>
    obtain ⟨cmd, hget, hc⟩ := Option.bind_eq_some_iff.mp hcode
    exact (hinv hs).1.2 code (List.mem_filterMap.mpr ⟨cmd, List.mem_of_getElem? hget, hc⟩)

end Collab

end CollabIde
