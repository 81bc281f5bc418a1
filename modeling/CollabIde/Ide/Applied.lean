import Mathlib.Data.Finset.Range
import Mathlib.Data.Finset.Union
import CollabIde.Ide.Decisions

/-!
# A proposal is applied at most once

Each page changes its own document before the server hears of the accept, and the server's accept
does nothing to a document. So a proposal is applied at most once, and not at all if its reject came
first, in a run in which an editor accepts it only while the server has it and no accept of it is on
its way, a reject is applied only while no accept is on its way, and no accept is dropped
(`applied_once`). Two editors who click at the same time insert it twice (`applied_twice`).
-/

namespace CollabIde.Review

variable {E : Type} [DecidableEq E] [Edit E] {cfg : Config E} {view : Finset E → YDoc}
  {s s' : Review E} {code id : String}

section Property

variable (s : Review E) (code id : String)

/-- What is in the documents of a session, merged. -/
def merged : Finset E :=
  ((Finset.range s.ide.next).filter fun k => (s.ide.conn k).client.code = code).biUnion
    (fun k => (s.ide.conn k).tab.doc) ∪ (s.ide.sessions.getDoc code).getD ∅

omit [DecidableEq E] [Edit E] in
/-- The insertions of a proposal. -/
def insertions : List (Insertion E) := s.inserted.filter fun i => i.code = code ∧ i.id = id

omit [DecidableEq E] [Edit E] in
/-- The decisions about it that the server applied. -/
def decisions : List ProposalCmd := s.decided.filter fun c => c.sessionCode = code ∧ c.id = id

/-- The merged document has one insertion of each proposal at most, and none of one whose first
decision was to reject it. -/
def AppliedOnce : Prop := ∀ id,
  ((s.insertions code id).filter fun i => i.edits ⊆ s.merged code).length ≤ 1 ∧
    (∀ c ∈ (s.decisions code id).head?, c.action = "reject" →
      ∀ i ∈ s.insertions code id, ¬ i.edits ⊆ s.merged code)

omit [DecidableEq E] [Edit E] in
/-- A decision of some page of the session has not been submitted. -/
def OnWay (action : String) : Prop :=
  ∃ k < s.ide.next, (s.ide.conn k).client.code = code ∧ (s.ide.conn k).Decides action id

omit [DecidableEq E] [Edit E] in
instance (action : String) : Decidable (s.OnWay code id action) :=
  inferInstanceAs (Decidable (∃ k < _, _))

end Property

/-- A step with the server's consent: an accept is of a pending proposal, with no other accept of it
on its way, and reaches a handler; none is dropped; a proposal that is added has not been decided,
and one that is rejected has no accept on its way. -/
def Agreed (view : Finset E → YDoc) (s : Review E) : Action E → Prop
  | .accept k p _ => s.Inserts view k p →
    (s.ide.conn k).serving = true ∧ (s.ide.conn k).tab.connected = true ∧
      s.ide.sessions.pending (s.ide.conn k).client.code p.id = true ∧
      ¬ s.OnWay (s.ide.conn k).client.code p.id "accept"
  | .ide x => (∀ d ∈ s.ide.dropped x, d.1 ≠ "accept") ∧
    ∀ c ∈ ((s.ide.command x).bind Cmd.proposal?).toList,
      (c.action = "add" → s.decisions c.sessionCode c.id = []) ∧
      (c.action = "reject" → ¬ s.OnWay c.sessionCode c.id "accept")
  | _ => True

instance (x : Action E) : Decidable (s.Agreed view x) :=
  match x with
  | .accept _ _ _ => inferInstanceAs (Decidable (_ → _ ∧ _))
  | .ide _ => inferInstanceAs (Decidable (_ ∧ _))
  | .add _ _ => inferInstanceAs (Decidable True)
  | .reject _ _ => inferInstanceAs (Decidable True)

/-- What all runs with such steps keep of a proposal. -/
structure Settled (s : Review E) (code id : String) : Prop where
  pending : s.ide.sessions.pending code id = true → s.decisions code id = []
  once : (s.insertions code id).length ≤ 1
  inserted : s.insertions code id ≠ [] →
    (s.OnWay code id "accept" ∧ s.decisions code id = []) ∨
      (∃ c ∈ (s.decisions code id).head?, c.action = "accept") ∧
        s.ide.sessions.pending code id = false

variable (s) in
omit [DecidableEq E] [Edit E] in
/-- The decision about a proposal that a step applies. -/
theorem decisions_step (x : Ide.Action E) (ide : Ide E) (code id : String) :
    (s.ide.sets x code id ≠ some false ∧ decisions { s with
        ide := ide, decided := s.decided ++ ((s.ide.command x).bind Cmd.decision).toList } code id =
      s.decisions code id) ∨
    ∃ c, s.ide.command x = some (.proposal c) ∧ code = c.sessionCode ∧ id = c.id ∧
      (c.action = "accept" ∨ c.action = "reject") ∧ s.ide.sets x code id = some false ∧
      decisions { s with
        ide := ide, decided := s.decided ++ ((s.ide.command x).bind Cmd.decision).toList } code id =
      s.decisions code id ++ [c] := by
  by_cases hsets : s.ide.sets x code id = some false
  · obtain ⟨c, hc, rfl, rfl, hact⟩ := Ide.sets_eq_some hsets
    rw [listed_eq_false] at hact
    refine .inr ⟨c, hc, rfl, rfl, hact, hsets, ?_⟩
    rw [decisions, hc, Option.bind_some, Cmd.decision, if_pos hact, List.filter_append]
    congr 1
    simp
  · refine .inl ⟨hsets, ?_⟩
    rw [decisions, List.filter_append]
    refine (congrArg _ (List.filter_eq_nil_iff.mpr fun c hc hid => hsets ?_)).trans
      (List.append_nil _)
    obtain ⟨cmd, hcmd, hdec⟩ := Option.bind_eq_some_iff.mp (Option.mem_toList.mp hc)
    cases cmd with
    | proposal c' =>
      simp only [Cmd.decision] at hdec
      split at hdec
      · rename_i hact
        cases hdec
        have hid' := of_decide_eq_true hid
        simp only [Ide.sets, hcmd, hid'.1, hid'.2, and_self, if_true, listed_eq_false.mpr hact]
      · cases hdec
    | _ => cases hdec

/-- An accept on its way stays there or is applied. -/
theorem OnWay.step (hs : s.Sound) {x : Ide.Action E} {ide : Ide E}
    (hst : s.ide.step cfg x = some ide) (hdrop : ∀ d ∈ s.ide.dropped x, d.1 ≠ "accept")
    (h : s.OnWay code id "accept") :
    (∃ k < ide.next, (ide.conn k).client.code = code ∧ (ide.conn k).Decides "accept" id) ∨
      ∃ c, s.ide.command x = some (.proposal c) ∧ c.sessionCode = code ∧ c.id = id ∧
        c.action = "accept" := by
  obtain ⟨j, hj, hcode, hd⟩ := h
  obtain hd' | ⟨c, rfl, hc, hact, hid⟩ | ⟨-, hdrops⟩ := Ide.step_decides hst hs.wf hs.orderly hd
  · exact .inl ⟨j, hj.trans_le (Ide.step_next hst), (Ide.step_stays hst hj).code.trans hcode, hd'⟩
  · exact .inr ⟨c, hc, (hs.orderly.command hc).trans hcode, hid, hact⟩
  · exact absurd rfl (hdrop _ hdrops)

namespace Settled

omit [Edit E] in
theorem applied (h : s.Settled code id) :
    ((s.insertions code id).filter fun i => i.edits ⊆ s.merged code).length ≤ 1 ∧
      (∀ c ∈ (s.decisions code id).head?, c.action = "reject" →
        ∀ i ∈ s.insertions code id, ¬ i.edits ⊆ s.merged code) := by
  refine ⟨(List.length_filter_le _ _).trans h.once, fun c hc hreject i hi => ?_⟩
  exfalso
  obtain ⟨-, hnil⟩ | ⟨⟨c', hc', haccept⟩, -⟩ := h.inserted (List.ne_nil_of_mem hi)
  · rw [hnil] at hc
    cases hc
  · rw [Option.mem_unique hc hc', haccept] at hreject
    exact absurd hreject (by decide)

omit [DecidableEq E] [Edit E] in
/-- A page sends or lists something else. -/
theorem setTab (h : s.Settled code id) {k : ℕ} {r : Tab E × List (Frame E)} :
    Settled { s with ide := s.ide.setTab k r } code id := by
  refine ⟨h.pending, h.once, fun hne => (h.inserted hne).imp_left fun ⟨⟨j, hj, hcode, hd⟩, hnil⟩ => ?_⟩
  refine ⟨⟨j, hj, ?_, Ide.setTab_decides.mpr (.inl hd)⟩, hnil⟩
  exact (congrArg Client.code (Ide.setTab_client r j)).trans hcode

/-- A step of the editor. -/
theorem ide (h : s.Settled code id) (hs : s.Sound) {x : Ide.Action E} {ide : Ide E}
    (hst : s.ide.step cfg x = some ide) (hok : s.Agreed view (.ide x)) :
    Settled { s with
      ide := ide, decided := s.decided ++ ((s.ide.command x).bind Cmd.decision).toList }
      code id := by
  obtain ⟨hdrop, hproposals⟩ := hok
  have hcmd {c : ProposalCmd} (hc : s.ide.command x = some (.proposal c)) :=
    hproposals c (by rw [hc]; exact List.mem_singleton_self c)
  have hpending := Ide.pending_step hst code id
  obtain ⟨hsets, hdec⟩ | ⟨c, hc, hcode, hid, hact, hsets, hdec⟩ := s.decisions_step x ide code id
  · -- an applied add is of a proposal that has not been decided
    have hadd (hsome : s.ide.sets x code id = some true) : s.decisions code id = [] := by
      obtain ⟨c, hc, rfl, rfl, hact⟩ := Ide.sets_eq_some hsome
      exact (hcmd hc).1 (listed_eq_true.mp hact)
    refine ⟨fun hp => hdec.trans ?_, h.once, fun hne => ?_⟩
    · rw [hpending] at hp
      cases hsome : s.ide.sets x code id with
      | none =>
        rw [hsome] at hp
        exact h.pending hp
      | some b =>
        rw [hsome, Option.getD_some] at hp
        exact hadd (hp ▸ hsome)
    · obtain ⟨hway, hnil⟩ | ⟨⟨c, hc, hact⟩, hgone⟩ := h.inserted hne
      · obtain hway' | ⟨c, hc, hcode, hid, hact⟩ := hway.step hs hst hdrop
        · exact .inl ⟨hway', hdec.trans hnil⟩
        · refine absurd ?_ hsets
          simp only [Ide.sets, hc, hcode, hid, and_self, if_true, hact]
          rfl
      · refine .inr ⟨⟨c, hdec ▸ hc, hact⟩, hpending.trans ?_⟩
        cases hsome : s.ide.sets x code id with
        | none => exact hgone
        | some b =>
          cases b with
          | false => exact absurd hsome hsets
          | true =>
            rw [hadd hsome] at hc
            cases hc
  · have hgone : ide.sessions.pending code id = false := by rw [hpending, hsets, Option.getD_some]
    refine ⟨fun hp => ?_, h.once, fun hne => .inr ⟨?_, hgone⟩⟩
    · rw [hgone] at hp
      cases hp
    · rw [hdec]
      obtain ⟨hway, hnil⟩ | ⟨⟨c', hc', hact'⟩, -⟩ := h.inserted hne
      · refine ⟨c, by rw [hnil]; rfl, hact.resolve_right fun hreject => ?_⟩
        rw [hcode, hid] at hway
        exact (hcmd hc).2 hreject hway
      · refine ⟨c', ?_, hact'⟩
        rw [List.head?_append, Option.mem_def.mp hc', Option.some_or]
        rfl

omit [Edit E] in
theorem accept (h : s.Settled code id) (hs : s.Sound) {k : ℕ} {p : Proposal} {es : Finset E}
    (hshow : s.Shows k p) (hins : s.Inserts view k p) (hok : s.Agreed view (.accept k p es)) :
    Settled { s with
      ide := s.ide.setTab k ((s.ide.conn k).tab.accept p es)
      inserted := s.inserted ++ [⟨(s.ide.conn k).client.code, p.id, es⟩] } code id := by
  obtain ⟨hserving, hconnected, hpending, hway⟩ := hok hins
  have htab := h.setTab (k := k) (r := (s.ide.conn k).tab.accept p es)
  by_cases hid : (s.ide.conn k).client.code = code ∧ p.id = id
  · obtain ⟨rfl, rfl⟩ := hid
    have hnil := h.pending hpending
    have hnone : s.insertions (s.ide.conn k).client.code p.id = [] := by
      by_contra hne
      obtain ⟨hon, -⟩ | ⟨-, hgone⟩ := h.inserted hne
      · exact hway hon
      · rw [hpending] at hgone
        cases hgone
    refine ⟨h.pending, ?_, fun _ => .inl ⟨⟨k, hshow.lt hs.wf, ?_, ?_⟩, hnil⟩⟩
    · rw [insertions, List.filter_append]
      change (s.insertions _ _ ++ _).length ≤ 1
      rw [hnone]
      exact List.length_filter_le _ _
    · exact congrArg Client.code (Ide.setTab_client _ k)
    · refine Ide.setTab_decides.mpr (.inr ⟨rfl, hserving, decisionFrame "accept" p, ?_,
        decisionFrame_decision (.inl rfl)⟩)
      exact List.mem_append_right _ (Tab.sendJSON_self _ hconnected)
  · have hins' : insertions { s with
        ide := s.ide.setTab k ((s.ide.conn k).tab.accept p es)
        inserted := s.inserted ++ [⟨(s.ide.conn k).client.code, p.id, es⟩] } code id =
        s.insertions code id := by
      rw [insertions, List.filter_append, List.filter_cons_of_neg (by simpa using hid),
        List.filter_nil, List.append_nil]
      rfl
    exact ⟨htab.pending, hins' ▸ h.once, fun hne => htab.inserted (hins' ▸ hne)⟩

theorem step (h : s.Settled code id) (hs : s.Sound) {x : Action E} (hok : s.Agreed view x)
    (hst : s.step cfg view x = some s') : s'.Settled code id := by
  cases stepped hst with
  | ide hx hide => exact h.ide hs hide hok
  | add _ => exact h.setTab
  | accept hshow hins => exact h.accept hs hshow hins hok
  | discard _ _ => exact h.setTab
  | reject _ => exact h.setTab

end Settled

/-- **A proposal is applied at most once**, if every step has the server's consent. -/
theorem applied_once (hs : (machine cfg view).Reach (Agreed view) s) (code : String) :
    s.AppliedOnce code := by
  intro id
  have hsettled : s.Settled code id := by
    refine hs.invariant (I := fun s => s.Settled code id) (fun s h => ?_)
      fun _ _ _ hr h hok hst => h.step (.of_reach hr) hok hst
    cases h
    exact ⟨fun _ => rfl, Nat.zero_le 1, fun hne => absurd rfl hne⟩
  exact hsettled.applied

/-! ## Two editors -/

open Ide

/-- The text of a document: the edit 0 writes "c", and the edits 1 and 2 replace it by "d". -/
def letters (d : Finset ℕ) : List UInt16 :=
  (if 0 ∈ d ∧ 1 ∉ d ∧ 2 ∉ d then utf16 "c" else []) ++ (if 1 ∈ d then utf16 "d" else []) ++
    if 2 ∈ d then utf16 "d" else []

/-- The positions "s" and "e" are the start and the end of the text. -/
def letterDoc (d : Finset ℕ) : YDoc where
  items := [letters d]
  position r := if r = "s" then some 0 else if r = "e" then some (letters d).length else none
  undefinedIndex := 0
  position_le r i h := by
    split at h
    · cases h
      exact Nat.zero_le _
    · split at h
      · cases h
        exact (congrArg List.length (List.append_nil (letters d))).ge
      · cases h
  position_empty := rfl

/-- "d" for "c". -/
def letterProposal : Proposal :=
  { id := "p", author := "ann", replacement := "d", originalText := "c", relStart := "s"
    relEnd := "e" }

/-- Both pages of `twoEditors` list the proposal. -/
def proposed : List (Action ℕ) :=
  twoEditors.map .ide ++ [.add 0 { type := "proposal", id := "p", replacement := "d"
                                   originalText := "c", relStart := "s", relEnd := "e" }] ++
    (takes 0 ++ gets 0 ++ gets 1).map .ide

/-- Ann accepts; then Bob's page has her document, and lists the proposal no more. -/
theorem applied_once_accepted : ∃ s : Review ℕ, s.inserted = [⟨"abc", "p", {1}⟩] ∧
    s.merged "abc" = {0, 1} ∧ s.AppliedOnce "abc" := by
  obtain ⟨s, hs, hv⟩ := (machine single letterDoc).reach_of_run (Agreed letterDoc)
    (f := fun s => decide (s.inserted = [⟨"abc", "p", {1}⟩] ∧ s.merged "abc" = {0, 1})) (v := true)
    (proposed ++ [.accept 0 letterProposal {1}] ++ (takes 0 ++ takes 0 ++ gets 1 ++ gets 1).map .ide)
    rfl (by decide +kernel)
  obtain ⟨hins, hmerged⟩ := of_decide_eq_true hv
  exact ⟨s, hins, hmerged, applied_once hs "abc"⟩

/-- Both accept before one gets the other's frame; then all is delivered. -/
theorem applied_twice : ¬ ∀ s : Review ℕ, (machine single letterDoc).Reachable s →
    s.ide.Quiet "abc" → s.AppliedOnce "abc" := by
  intro h
  obtain ⟨s, hs, hv⟩ := (machine single letterDoc).reach_of_run (fun _ _ => True)
    (f := fun s => decide (s.ide.Quiet "abc" ∧ s.merged "abc" = {0, 1, 2} ∧
      s.inserted = [⟨"abc", "p", {1}⟩, ⟨"abc", "p", {2}⟩])) (v := true)
    (proposed ++ [.accept 0 letterProposal {1}, .accept 1 letterProposal {2}] ++
      (takes 0 ++ takes 0 ++ takes 1 ++ takes 1 ++ gets 0 ++ gets 0 ++ gets 0 ++ gets 1 ++ gets 1 ++
        gets 1 ++ [Ide.Action.serve 0, .serve 1] ++ gets 0 ++ gets 1).map .ide)
    rfl (by decide +kernel)
  obtain ⟨hquiet, hmerged, hins⟩ := of_decide_eq_true hv
  have honce := (h s hs hquiet "p").1
  rw [insertions, hins, hmerged] at honce
  exact absurd honce (by decide)

end CollabIde.Review
